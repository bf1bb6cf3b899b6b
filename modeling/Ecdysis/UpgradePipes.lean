/-
# The descriptors of an upgrade

A call of `upgrade` makes two pipes and duplicates one end of each.  Some of these numbers
are owned by objects that close them on drop, some are plain integers that `FdPair` or an
error branch closes, and two move to the threads `send_fds` and `wait_ready`.

`Attempt` is a call as in `Executioner` in a process with a descriptor table.  The main
thread makes one system call a step: what its locals hold is its `Scope`, and `rest` is what
it still has to do, and to drop, before it goes on or returns.  Meanwhile the other threads
of the process, further calls of `upgrade` among them, may open and close numbers that are
not those of this call.  `Command::spawn` leaves no number in the parent.

* `Attempt.Inv.step` : the numbers that the call has opened are those in its scope, those it
  is about to close, and those of the two threads.
* `run_listenerPipes`, `run_readyPipes` : the system calls of these functions, one by one, do
  what the functions of `CloseOnExec` do.
* `Attempt.Inv.setup_enabled`, `setup_failure_returns` : each set-up step can succeed, and each
  can fail, after which the call drops all it holds and returns.
* `upgrade_leaks_nothing` : when a call has returned, with whatever result, the table is what
  it was but for what others did, and everything that the call opened has been closed
  exactly once, by whoever owned it.
-/
import Ecdysis.Accounts
import Ecdysis.CloseOnExec
import Ecdysis.UpgradeInvariant

open Executioner

namespace UpgradePipes

/-! ## The main thread and its locals -/

/-- The threads of a call that own pipe ends. -/
inductive Thread
  | main
  | sendFds
  | waitReady
  deriving DecidableEq

/-- The numbers that the locals of the main thread hold: after `os_pipe::pipe` in
`listener_pipes`, after `listener_pipes`, after `os_pipe::pipe` in `ready_pipes`, then
`UpgradePipes`, what `take_pipes` returns, and what is left of it for `wait_ready`. -/
inductive Scope
  | nothing
  | listenerPipe (recvListeners sendListeners : RawFd)
  | listener (recvListenersFd sendListeners : RawFd)
  | readyPipe (recvListenersFd sendListeners recvReady sendReady : RawFd)
  | pipes (recvReady sendListeners recvListenersFd sendReadyFd : RawFd)
  | taken (recvReady sendListeners : RawFd)
  | reader (recvReady : RawFd)
  deriving DecidableEq

/-- The numbers of the scope, in the order in which they are closed when the next step
fails: locals in the reverse order of their declaration, fields in the order of theirs. -/
def Scope.drops : Scope → List RawFd
  | .nothing => []
  | .listenerPipe recvListeners sendListeners => [sendListeners, recvListeners]
  -- `recv_listeners_fd` is closed by hand, in `inspect_err`
  | .listener recvListenersFd sendListeners => [recvListenersFd, sendListeners]
  | .readyPipe recvListenersFd sendListeners recvReady sendReady =>
    [sendReady, recvReady, recvListenersFd, sendListeners]
  | .pipes recvReady sendListeners recvListenersFd sendReadyFd =>
    [recvReady, sendListeners, recvListenersFd, sendReadyFd]
  -- the closure that could not be started is dropped first
  | .taken recvReady sendListeners => [sendListeners, recvReady]
  | .reader recvReady => [recvReady]

/-- What the main thread may still have to do after a step. -/
inductive Op
  | unsetCloexec (fd : RawFd)
  | close (fd : RawFd)
  deriving DecidableEq

/-- The number that is closed. -/
def Op.closes : Op → Option RawFd
  | .unsetCloexec _ => none
  | .close fd => some fd

/-- A call of `upgrade` in a process: the flag and the clock, the threads, the descriptors
with titles to those that this call has opened, the locals of the main thread, what it has
still to do, and the ends that have moved to `send_fds` and `wait_ready`. -/
structure Attempt where
  shared : Shared
  call : Call
  proc : Proc
  titles : Titles RawFd Thread
  scope : Scope
  rest : List Op
  sendPipe : Option RawFd
  recvReady : Option RawFd

namespace Attempt

/-- Before the call. -/
def init (g : Shared) (p : Proc) : Attempt :=
  ⟨g, .init, p, ⟨fun _ => none, 0, []⟩, .nothing, [], none, none⟩

/-- The result, once the call has returned: all locals have been dropped before that. -/
def returned (w : Attempt) : Option UpgradeFinished :=
  if w.rest = [] then w.call.main.result else none

/-! ## Steps -/

/-- The main thread opens a number. -/
def openFd (w : Attempt) (fd : RawFd) (d : Desc) : Attempt :=
  { w with proc := w.proc.openFd fd d, titles := w.titles.issue fd .main }

/-- A thread closes a number. -/
def closeFd (w : Attempt) (fd : RawFd) (o : Thread) : Attempt :=
  { w with proc := w.proc.closeFdQuiet fd, titles := w.titles.release fd o }

/-- `os_pipe::pipe`: the two numbers are free, and close-on-exec. -/
def pipe (w : Attempt) (reader writer : RawFd) (readEnd writeEnd : ℕ) : Option Attempt :=
  if w.proc.table reader = none ∧ w.proc.table writer = none ∧ writer ≠ reader then
    some ((w.openFd reader ⟨readEnd, true⟩).openFd writer ⟨writeEnd, true⟩)
  else none

/-- `os_pipe::pipe` in `listener_pipes` or `ready_pipes`. -/
def stepPipe (w : Attempt) (reader writer : RawFd) (readEnd writeEnd : ℕ) : Option Attempt :=
  match w.call.main, w.scope with
  | .setup .listenerPipe, .nothing =>
    (w.pipe reader writer readEnd writeEnd).map fun w' =>
      { w' with call := w.call.setupDone .listenerPipe, scope := .listenerPipe reader writer }
  | .setup .readyPipe, .listener recvListenersFd sendListeners =>
    (w.pipe reader writer readEnd writeEnd).map fun w' =>
      { w' with
        call := w.call.setupDone .readyPipe
        scope := .readyPipe recvListenersFd sendListeners reader writer }
  | _, _ => none

/-- `clone_fd` of an end; the duplicate is exposed and the end itself dropped afterwards. -/
def dup (w : Attempt) (own : RawFd) (p : Setup) (scope : RawFd → Scope) : Option Attempt :=
  match w.proc.cloneFd own with
  | .error _ => none
  | .ok (dup, q) =>
    some { w with
      call := w.call.setupDone p
      proc := q
      titles := w.titles.issue dup .main
      scope := scope dup
      rest := [.unsetCloexec dup, .close own] }

/-- `clone_fd` in `listener_pipes` or `ready_pipes`. -/
def stepDup (w : Attempt) : Option Attempt :=
  match w.call.main, w.scope with
  | .setup .listenerDup, .listenerPipe recvListeners sendListeners =>
    w.dup recvListeners .listenerDup fun recvListenersFd => .listener recvListenersFd sendListeners
  | .setup .readyDup, .readyPipe recvListenersFd sendListeners recvReady sendReady =>
    w.dup sendReady .readyDup fun sendReadyFd =>
      .pipes recvReady sendListeners recvListenersFd sendReadyFd
  | _, _ => none

/-- `take_pipes`, which drops the `FdPair`. -/
def takePipes (w : Attempt) : Option Attempt :=
  match w.call.main, w.scope with
  | .setup .sendThread, .pipes recvReady sendListeners recvListenersFd sendReadyFd =>
    some { w with
      scope := .taken recvReady sendListeners
      rest := [.close recvListenersFd, .close sendReadyFd] }
  | _, _ => none

/-- Any other step of the main thread that succeeds; `send_fds` and `wait_ready` take the
ends of the pipes with them. -/
def stepMain (w : Attempt) : Option Attempt :=
  match w.call.main, w.scope with
  | .setup .listenerPipe, _ | .setup .listenerDup, _ => none
  | .setup .readyPipe, _ | .setup .readyDup, _ => none
  | .setup .sendThread, .taken recvReady sendListeners =>
    some { w with
      call := w.call.setupDone .sendThread
      titles := w.titles.transfer sendListeners .sendFds
      scope := .reader recvReady
      sendPipe := some sendListeners }
  | .setup .waitReadyThread, .reader recvReady =>
    some { w with
      call := w.call.setupDone .waitReadyThread
      titles := w.titles.transfer recvReady .waitReady
      scope := .nothing
      recvReady := some recvReady }
  | .setup .sendThread, _ | .setup .waitReadyThread, _ => none
  | _, _ => (w.call.stepMain w.shared).map fun (g, k) => { w with shared := g, call := k }

/-- The step the main thread is at fails, `take_pipes` apart, and all locals are dropped. -/
def stepFail (w : Attempt) (msg : String) : Option Attempt :=
  match w.call.main, w.scope with
  | .setup .sendThread, .pipes _ _ _ _ => none
  | _, _ => (w.call.stepFail msg).map fun k =>
    { w with call := k, scope := .nothing, rest := w.scope.drops.map .close }

/-- The next of what the main thread has still to do. -/
def work (w : Attempt) : Option Attempt :=
  match w.rest with
  | [] => none
  | .unsetCloexec fd :: ops =>
    (w.proc.unsetCloexec fd).map fun q => { w with proc := q, rest := ops }
  | .close fd :: ops => some { w.closeFd fd .main with rest := ops }

/-- A step of `wait_ready`; when the thread is done, it has dropped `recv_ready`. -/
def stepWaitReady (w : Attempt) : Option Attempt :=
  w.call.stepWaitReady.map fun k =>
    match k.waitReady, w.recvReady with
    | .done _, some fd => { w.closeFd fd .waitReady with call := k, recvReady := none }
    | _, _ => { w with call := k }

/-- The end of `send_fds`, where `serialize_into` has dropped `send_pipe`. -/
def stepSend (w : Attempt) (err : Option String) : Option Attempt :=
  (w.call.stepSend err).map fun k =>
    match w.sendPipe with
    | some fd => { w.closeFd fd .sendFds with call := k, sendPipe := none }
    | none => { w with call := k }

/-- What can happen: time passes, other calls of `upgrade` do anything to the flag, the threads
of this one and its child take a step, and the rest of the process changes numbers of its
own. -/
inductive Event
  | tick (ms : ℕ)
  | flag (b : Bool)
  | main
  | pipe (reader writer : RawFd) (readEnd writeEnd : ℕ)
  | dup
  | takePipes
  | fail (msg : String)
  | work
  | waitChild
  | waitReady
  | send (err : Option String)
  | child (a : ChildAct)
  | assign (fd : RawFd) (d : Desc)
  | close (fd : RawFd)

/-- One step.  The main thread goes on when it has nothing left to do. -/
def step (w : Attempt) : Event → Option Attempt
  | .tick ms => some { w with shared := { w.shared with now := w.shared.now + ms } }
  | .flag b => some { w with shared := { w.shared with upgrading := b } }
  | .main => if w.rest = [] then w.stepMain else none
  | .pipe reader writer readEnd writeEnd =>
    if w.rest = [] then w.stepPipe reader writer readEnd writeEnd else none
  | .dup => if w.rest = [] then w.stepDup else none
  | .takePipes => if w.rest = [] then w.takePipes else none
  | .fail msg => if w.rest = [] then w.stepFail msg else none
  | .work => w.work
  | .waitChild => (w.call.stepWaitChild w.shared).map fun k => { w with call := k }
  | .waitReady => w.stepWaitReady
  | .send err => w.stepSend err
  | .child a => (w.call.stepChild a).map fun k => { w with call := k }
  | .assign fd d =>
    if w.titles.owner fd = none then some { w with proc := w.proc.openFd fd d } else none
  | .close fd =>
    if w.titles.owner fd = none then some { w with proc := w.proc.closeFdQuiet fd } else none

/-- What an event of the rest of the process does to a table. -/
def others (t : Table) : Event → Table
  | .assign fd d => t.assign fd d
  | .close fd => t.close fd
  | _ => t

/-- The rest of the process does nothing to the table. -/
def Event.own : Event → Bool
  | .assign _ _ | .close _ => false
  | _ => true

theorem others_of_own {t : Table} {e : Event} (h : e.own = true) : others t e = t := by
  cases e with
  | assign fd d => cases h
  | close fd => cases h
  | _ => rfl

theorem foldl_others {t : Table} {es : List Event} (h : ∀ e ∈ es, e.own = true) :
    es.foldl others t = t := by
  induction es with
  | nil => rfl
  | cons e es ih =>
    rw [List.foldl_cons, others_of_own (h e List.mem_cons_self)]
    exact ih fun e' he' => h e' (List.mem_cons_of_mem _ he')

end Attempt

/-- All that can happen from the call of `upgrade` on, in any process. -/
def attempt (g : Shared) (p : Proc) : TransitionSystem Attempt Attempt.Event where
  Init := fun w => w = .init g p
  step := Attempt.step

/-! ## What the call holds -/

/-- The scope is that of the set-up step. -/
def Scope.fits : Scope → Setup → Bool
  | .nothing, .listenerPipe => true
  | .listenerPipe _ _, .listenerDup => true
  | .listener _ _, .readyPipe => true
  | .readyPipe _ _ _ _, .readyDup => true
  | .pipes _ _ _ _, .currentDir | .pipes _ _ _ _, .spawn | .pipes _ _ _ _, .sendThread => true
  | .taken _ _, .sendThread => true
  | .reader _, .waitChildThread | .reader _, .waitReadyThread => true
  | _, _ => false

/-- The scopes of the set-up steps. -/
theorem Scope.fits_cases {s : Scope} {q : Setup} (h : s.fits q = true) :
    (q = .listenerPipe ∧ s = .nothing) ∨
    (q = .listenerDup ∧ ∃ recv send, s = .listenerPipe recv send) ∨
    (q = .readyPipe ∧ ∃ fd send, s = .listener fd send) ∨
    (q = .readyDup ∧ ∃ fd send recvReady sendReady, s = .readyPipe fd send recvReady sendReady) ∨
    ((q = .currentDir ∨ q = .spawn ∨ q = .sendThread) ∧
      ∃ recvReady send fd dup, s = .pipes recvReady send fd dup) ∨
    (q = .sendThread ∧ ∃ recvReady send, s = .taken recvReady send) ∨
    ((q = .waitChildThread ∨ q = .waitReadyThread) ∧ ∃ recvReady, s = .reader recvReady) := by
  cases s <;> cases q <;> simp_all [Scope.fits]

namespace Attempt

variable {g : Shared} {p : Proc} {t : Table} {w w' : Attempt} {e : Event}

/-- The numbers that the main thread holds: those of its scope and those it is to close. -/
def mainFds (w : Attempt) : List RawFd := w.scope.drops ++ w.rest.filterMap Op.closes

/-- The numbers that are with the other threads. -/
def workerFds (w : Attempt) : List (RawFd × Thread) :=
  w.sendPipe.toList.map (·, .sendFds) ++ w.recvReady.toList.map (·, .waitReady)

/-- The numbers that the call has opened and not closed, each with its owner. -/
def held (w : Attempt) : List (RawFd × Thread) := w.mainFds.map (·, .main) ++ w.workerFds

/-- What the position of the main thread says about the numbers. -/
def MainFacts (w : Attempt) : Prop :=
  match w.call.main with
  | .start | .refused | .aborted _ _ | .returned _ =>
    w.scope = .nothing ∧ w.sendPipe = none ∧ w.recvReady = none
  | .setup p => w.scope.fits p = true ∧ w.recvReady = none ∧
      (p ∉ [.waitChildThread, .waitReadyThread] → w.sendPipe = none)
  | .joinReady => w.scope = .nothing
  | .store _ | .joinChild _ | .joinSend _ => w.scope = .nothing ∧ w.recvReady = none
  | .panicked => True

/-- The titles are to what the call holds, and the threads that hold an end are running. -/
structure Inv (t : Table) (w : Attempt) : Prop where
  accounts : Accounts w.titles w.proc.table t w.held
  main : w.MainFacts
  sending : w.sendPipe.isSome → w.call.send = .running
  reading : w.recvReady.isSome → ∃ buf, w.call.waitReady = .reading buf
  unset : ∀ fd, .unsetCloexec fd ∈ w.rest → fd ∈ w.scope.drops

theorem inv_init (g : Shared) (p : Proc) : Inv p.table (init g p) :=
  ⟨.start p.table, ⟨rfl, rfl, rfl⟩, by simp [init], by simp [init], by simp [init]⟩

/-! ## One step -/

/-- The threads may lose their ends while the main thread stays where it is. -/
theorem MainFacts.of_ends (hm : w.MainFacts) (hmain : w'.call.main = w.call.main)
    (hscope : w'.scope = w.scope) (hsend : w.sendPipe = none → w'.sendPipe = none)
    (hready : w.recvReady = none → w'.recvReady = none) : w'.MainFacts := by
  unfold MainFacts at hm ⊢
  rw [hmain, hscope]
  cases hk : w.call.main <;> simp_all

/-- A step that leaves the numbers alone, and the threads that hold some. -/
theorem Inv.of_call (h : Inv t w) {g : Shared} {k : Call} (hmain : k.main = w.call.main)
    (hsend : k.send = w.call.send) (hready : k.waitReady = w.call.waitReady) :
    Inv t { w with shared := g, call := k } := by
  refine ⟨h.accounts, h.main.of_ends hmain rfl id id, fun hs => ?_, fun hr => ?_, h.unset⟩
  · rw [hsend]
    exact h.sending hs
  · rw [hready]
    exact h.reading hr

/-- `os_pipe::pipe` opens two numbers. -/
theorem Inv.pipe (h : Inv t w) {reader writer : RawFd} {readEnd writeEnd : ℕ}
    (hpipe : w.pipe reader writer readEnd writeEnd = some w') :
    ∃ q T, w' = { w with proc := q, titles := T } ∧
      Accounts T q.table t ((writer, .main) :: (reader, .main) :: w.held) := by
  unfold Attempt.pipe at hpipe
  split at hpipe
  · rename_i hfree
    cases hpipe
    obtain ⟨hreader, hwriter, hne⟩ := hfree
    refine ⟨_, _, rfl, (h.accounts.issue hreader .main _).issue ?_ .main _⟩
    rw [DescriptorTable.assign_of_ne _ hne]
    exact hwriter
  · cases hpipe

/-- The numbers of the main thread change, those of the others do not. -/
theorem accounts_held {T : Titles RawFd Thread} {L : List RawFd}
    (ha : Accounts T w'.proc.table t (L.map (·, .main) ++ w.workerFds)) (hL : L.Perm w'.mainFds)
    (hworkers : w'.workerFds = w.workerFds) : Accounts T w'.proc.table t w'.held := by
  rw [held, hworkers]
  exact ha.perm ((hL.map _).append_right _)

/-- The main thread goes on from a step that makes a pipe or a duplicate to the next. -/
theorem Inv.advance (h : Inv t w) {p p' : Setup} {q : Proc} {T : Titles RawFd Thread}
    {scope : Scope} {rest : List Op} {L : List RawFd} (hmain : w.call.main = .setup p)
    (hp : p ∉ [.waitChildThread, .waitReadyThread])
    (hnext : w.call.setupDone p = { w.call with main := .setup p' })
    (hfits : scope.fits p' = true) (ha : Accounts T q.table t (L.map (·, .main) ++ w.workerFds))
    (hL : L.Perm (scope.drops ++ rest.filterMap Op.closes))
    (hunset : ∀ fd, .unsetCloexec fd ∈ rest → fd ∈ scope.drops) :
    Inv t { w with
      call := w.call.setupDone p, proc := q, titles := T, scope := scope, rest := rest } := by
  have hm := h.main
  simp only [MainFacts, hmain] at hm
  rw [hnext]
  exact ⟨accounts_held ha hL rfl, ⟨hfits, hm.2.1, fun _ => hm.2.2 hp⟩, h.sending, h.reading, hunset⟩

theorem Inv.stepPipe (h : Inv t w) (hrest : w.rest = []) {reader writer : RawFd}
    {readEnd writeEnd : ℕ} (hstep : w.stepPipe reader writer readEnd writeEnd = some w') :
    Inv t w' := by
  unfold Attempt.stepPipe at hstep
  split at hstep
  · rename_i hmain hscope
    obtain ⟨w₁, hpipe, rfl⟩ := Option.map_eq_some_iff.mp hstep
    obtain ⟨q, T, rfl, ha⟩ := h.pipe hpipe
    refine h.advance (L := writer :: reader :: w.mainFds) hmain (by decide) rfl rfl ha ?_
      (by simp [hrest])
    simp [mainFds, Scope.drops, hscope, hrest]
  · rename_i fd send hmain hscope
    obtain ⟨w₁, hpipe, rfl⟩ := Option.map_eq_some_iff.mp hstep
    obtain ⟨q, T, rfl, ha⟩ := h.pipe hpipe
    refine h.advance (L := writer :: reader :: w.mainFds) hmain (by decide) rfl rfl ha ?_
      (by simp [hrest])
    simp [mainFds, Scope.drops, hscope, hrest]
  · cases hstep

/-- `clone_fd` opens a number, and adds the end it has duplicated to what is to be closed. -/
theorem Inv.dup (h : Inv t w) {own : RawFd} {p : Setup} {scope : RawFd → Scope}
    (hdup : w.dup own p scope = some w') :
    ∃ q T fd, w' = { w with
        call := w.call.setupDone p, proc := q, titles := T, scope := scope fd,
        rest := [.unsetCloexec fd, .close own] } ∧
      Accounts T q.table t ((fd, .main) :: w.held) := by
  unfold Attempt.dup at hdup
  split at hdup
  · cases hdup
  · rename_i fd q hclone
    cases hdup
    obtain ⟨d, -, -, -, hfree, rfl⟩ := Proc.cloneFd_eq_ok hclone
    exact ⟨_, _, fd, rfl, h.accounts.issue hfree .main _⟩

theorem Inv.stepDup (h : Inv t w) (hrest : w.rest = []) (hstep : w.stepDup = some w') :
    Inv t w' := by
  unfold Attempt.stepDup at hstep
  split at hstep
  · rename_i recv send hmain hscope
    obtain ⟨q, T, fd, rfl, ha⟩ := h.dup hstep
    refine h.advance (L := fd :: w.mainFds) hmain (by decide) rfl rfl ha ?_ (by simp [Scope.drops])
    simp [mainFds, Scope.drops, Op.closes, List.filterMap_cons, hscope, hrest]
  · rename_i fd send recvReady sendReady hmain hscope
    obtain ⟨q, T, dup, rfl, ha⟩ := h.dup hstep
    refine h.advance (L := dup :: w.mainFds) hmain (by decide) rfl rfl ha ?_ (by simp [Scope.drops])
    -- the end is now behind the scope, and the duplicate in it
    refine List.perm_iff_count.mpr fun a => ?_
    simp only [mainFds, Scope.drops, Op.closes, List.filterMap_cons, List.filterMap_nil, hscope,
      hrest, List.cons_append, List.nil_append, List.append_nil, List.count_cons, List.count_nil]
    ring
  · cases hstep

theorem Inv.takePipes (h : Inv t w) (hrest : w.rest = []) (hstep : w.takePipes = some w') :
    Inv t w' := by
  have hm := h.main
  unfold Attempt.takePipes at hstep
  split at hstep
  · rename_i recvReady send fd dup hmain hscope
    cases hstep
    simp only [MainFacts, hmain] at hm
    refine ⟨accounts_held h.accounts ?_ rfl, ?_, h.sending, h.reading, by simp⟩
    · rw [mainFds, hscope, hrest]
      exact List.Perm.swap send recvReady [fd, dup]
    · simp only [MainFacts, hmain]
      exact ⟨rfl, hm.2.1, hm.2.2⟩
  · cases hstep

/-- A step of the main thread that opens, closes and passes on nothing. -/
theorem Inv.stepCall (h : Inv t w) {g : Shared} {k : Call}
    (hsetup : ∀ p, w.call.main = .setup p → p ∈ [.currentDir, .spawn, .waitChildThread])
    (hstep : w.call.stepMain w.shared = some (g, k)) :
    Inv t { w with shared := g, call := k } := by
  have hm := h.main
  have hworkers : k.send = w.call.send ∧ k.waitReady = w.call.waitReady ∧
      MainFacts { w with shared := g, call := k } := by
    unfold Call.stepMain at hstep
    cases hmain : w.call.main with
    | setup p =>
      simp only [hmain, Option.some.injEq, Prod.mk.injEq] at hstep
      obtain ⟨rfl, rfl⟩ := hstep
      have hp := hsetup p hmain
      simp only [List.mem_cons, List.not_mem_nil, or_false] at hp
      rcases hp with rfl | rfl | rfl <;> cases hscope : w.scope <;>
        simp_all [MainFacts, Call.setupDone, Scope.fits]
    | start =>
      simp only [hmain] at hstep
      split at hstep <;> cases hstep <;> simp_all [MainFacts, Scope.fits]
    | joinReady =>
      -- a thread that is done has no end any more
      have hnone : ∀ res, w.call.waitReady = .done res → w.recvReady = none := by
        intro res hdone
        by_contra hsome
        obtain ⟨buf, hbuf⟩ := h.reading (Option.isSome_iff_ne_none.mpr hsome)
        rw [hdone] at hbuf
        cases hbuf
      simp only [hmain] at hstep
      split at hstep <;> cases hstep
      rename_i res hdone
      exact ⟨rfl, rfl, by simpa [MainFacts, hmain] using hm, hnone res hdone⟩
    | store res =>
      simp only [hmain] at hstep
      cases hstep
      exact ⟨rfl, rfl, by simpa [MainFacts, hmain] using hm⟩
    | joinChild res =>
      simp only [hmain] at hstep
      split at hstep <;> cases hstep <;>
        exact ⟨rfl, rfl, by simpa [MainFacts, hmain] using hm⟩
    | joinSend res =>
      have hnone : ∀ res, w.call.send = .done res → w.sendPipe = none := by
        intro res hdone
        by_contra hsome
        have hrunning := h.sending (Option.isSome_iff_ne_none.mpr hsome)
        rw [hdone] at hrunning
        cases hrunning
      simp only [MainFacts, hmain] at hm
      simp only [hmain] at hstep
      split at hstep <;> cases hstep
      rename_i res' hdone
      exact ⟨rfl, rfl, hm.1, hnone res' hdone, hm.2⟩
    | _ => simp [hmain] at hstep
  obtain ⟨hsend, hready, hfacts⟩ := hworkers
  refine ⟨h.accounts, hfacts, fun hs => ?_, fun hr => ?_, h.unset⟩
  · exact hsend.trans (h.sending hs)
  · obtain ⟨buf, hbuf⟩ := h.reading hr
    exact ⟨buf, hready.trans hbuf⟩

theorem Inv.stepMain (h : Inv t w) (hrest : w.rest = []) (hstep : w.stepMain = some w') :
    Inv t w' := by
  have hm := h.main
  have ha := h.accounts
  unfold Attempt.stepMain at hstep
  split at hstep
  · cases hstep
  · cases hstep
  · cases hstep
  · cases hstep
  · -- `send_fds` is started
    rename_i recvReady send hmain hscope
    cases hstep
    simp only [MainFacts, hmain] at hm
    obtain ⟨-, hready, hsend⟩ := hm
    have hsend := hsend (by decide)
    simp only [held, mainFds, workerFds, hscope, hrest, hsend, hready, Scope.drops] at ha
    refine ⟨?_, ⟨rfl, hready, by simp⟩, fun _ => rfl, by simp [hready], by simp [hrest]⟩
    simp only [held, mainFds, workerFds, hrest, hready, Scope.drops]
    exact (ha.transfer .sendFds).perm (List.Perm.swap _ _ _)
  · -- `wait_ready` is started
    rename_i recvReady hmain hscope
    cases hstep
    simp only [MainFacts, hmain] at hm
    obtain ⟨-, hready, -⟩ := hm
    simp only [held, mainFds, workerFds, hscope, hrest, hready, Scope.drops] at ha
    refine ⟨?_, rfl, h.sending, fun _ => ⟨[], rfl⟩, by simp [hrest]⟩
    simp only [held, mainFds, workerFds, hrest, Scope.drops]
    refine (ha.transfer .waitReady).perm ?_
    simpa using (List.perm_append_singleton (recvReady, Thread.waitReady) _).symm
  · cases hstep
  · cases hstep
  · obtain ⟨⟨g, k⟩, hk, rfl⟩ := Option.map_eq_some_iff.mp hstep
    refine h.stepCall (fun p hp => ?_) hk
    cases p <;> simp_all

/-- When a step fails, all of the scope is to be closed. -/
theorem Inv.stepFail (h : Inv t w) (hrest : w.rest = []) {msg : String}
    (hstep : w.stepFail msg = some w') : Inv t w' := by
  have hm := h.main
  unfold Attempt.stepFail at hstep
  split at hstep
  · cases hstep
  · obtain ⟨k, hk, rfl⟩ := Option.map_eq_some_iff.mp hstep
    unfold Call.stepFail at hk
    split at hk
    · rename_i p hmain
      cases hk
      simp only [MainFacts, hmain] at hm
      refine ⟨accounts_held h.accounts ?_ rfl, ?_, h.sending, h.reading, by simp⟩
      · have hcloses : (w.scope.drops.map Op.close).filterMap Op.closes = w.scope.drops := by
          simp [List.filterMap_map, Function.comp_def, Op.closes]
        have hnothing : Scope.nothing.drops = [] := rfl
        rw [mainFds, mainFds, hrest, hcloses, hnothing, List.filterMap_nil, List.append_nil]
        exact .refl _
      · cases p <;> simp_all [MainFacts, Setup.failed]
    · cases hk

/-- What the main thread has left to do. -/
theorem Inv.work (h : Inv t w) (hstep : w.work = some w') : Inv t w' := by
  unfold Attempt.work at hstep
  split at hstep
  · cases hstep
  · rename_i fd ops hrest
    obtain ⟨q, hq, rfl⟩ := Option.map_eq_some_iff.mp hstep
    obtain ⟨t', ht', rfl⟩ := Option.map_eq_some_iff.mp hq
    obtain ⟨d, hd, rfl⟩ := Option.map_eq_some_iff.mp ht'
    have hfd : fd ∈ w.scope.drops := h.unset fd (by rw [hrest]; exact List.mem_cons_self)
    have hmem : fd ∈ w.held.map Prod.fst := by simp [held, mainFds, hfd]
    refine ⟨accounts_held (h.accounts.rewrite hmem _) ?_ rfl, h.main, h.sending, h.reading,
      fun fd' hfd' => h.unset fd' ?_⟩
    · simp [mainFds, hrest, List.filterMap_cons, Op.closes]
    · rw [hrest]
      exact List.mem_cons_of_mem _ hfd'
  · rename_i fd ops hrest
    cases hstep
    have hperm : w.mainFds.Perm (fd :: (w.scope.drops ++ ops.filterMap Op.closes)) := by
      rw [mainFds, hrest]
      exact List.perm_middle
    refine ⟨(h.accounts.perm ((hperm.map _).append_right _)).release, h.main, h.sending, h.reading,
      fun fd' hfd' => h.unset fd' ?_⟩
    rw [hrest]
    exact List.mem_cons_of_mem _ hfd'

/-- `wait_ready` goes on reading, or it is done and has closed its end. -/
theorem Inv.stepWaitReady (h : Inv t w) (hstep : w.stepWaitReady = some w') : Inv t w' := by
  obtain ⟨k, hk, rfl⟩ := Option.map_eq_some_iff.mp hstep
  have hmain := (Call.sameEnds_stepWaitReady hk).main
  obtain ⟨-, hsend, hread⟩ := Call.workers_stepWaitReady hk
  split
  · rename_i res fd hdone hready
    have hheld : w.held.Perm ((fd, .waitReady) :: (w.mainFds.map (·, .main) ++
        (w.sendPipe.toList.map (·, .sendFds) ++ []))) := by
      rw [held, workerFds, hready, List.append_nil, ← List.append_assoc]
      exact List.perm_append_singleton _ _
    exact ⟨(h.accounts.perm hheld).release, h.main.of_ends hmain rfl id fun _ => rfl,
      fun hs => hsend.trans (h.sending hs), by simp, h.unset⟩
  · rename_i hnot
    refine ⟨h.accounts, h.main.of_ends hmain rfl id id, fun hs => hsend.trans (h.sending hs),
      fun hr => ?_, h.unset⟩
    rcases hread with hread | ⟨res, hdone⟩
    · exact hread
    · obtain ⟨fd, hfd⟩ := Option.isSome_iff_exists.mp hr
      exact absurd hfd (hnot res fd hdone)

/-- `send_fds` ends, and has closed its end. -/
theorem Inv.stepSend (h : Inv t w) {err : Option String} (hstep : w.stepSend err = some w') :
    Inv t w' := by
  obtain ⟨k, hk, rfl⟩ := Option.map_eq_some_iff.mp hstep
  have hmain := (Call.sameEnds_stepSend hk).main
  have hready : k.waitReady = w.call.waitReady := by
    unfold Call.stepSend at hk
    split at hk <;> cases hk
    rfl
  have hreading : w.recvReady.isSome → ∃ buf, k.waitReady = .reading buf := by
    rw [hready]
    exact h.reading
  split
  · rename_i fd hsend
    have hheld : w.held.Perm ((fd, .sendFds) :: (w.mainFds.map (·, .main) ++
        w.recvReady.toList.map (·, .waitReady))) := by
      rw [held, workerFds, hsend]
      exact List.perm_middle
    exact ⟨(h.accounts.perm hheld).release, h.main.of_ends hmain rfl (fun _ => rfl) id, by simp,
      hreading, h.unset⟩
  · rename_i hsend
    exact ⟨h.accounts, h.main.of_ends hmain rfl id id, by simp [hsend], hreading, h.unset⟩

/-- **One step** keeps the accounts. -/
theorem Inv.step (h : Inv t w) (hstep : w.step e = some w') : Inv (others t e) w' := by
  cases e with
  | tick ms =>
    cases hstep
    exact h.of_call rfl rfl rfl
  | flag b =>
    cases hstep
    exact h.of_call rfl rfl rfl
  | main =>
    obtain ⟨hrest, hstep⟩ := Option.ite_none_right_eq_some.mp hstep
    exact h.stepMain hrest hstep
  | pipe reader writer readEnd writeEnd =>
    obtain ⟨hrest, hstep⟩ := Option.ite_none_right_eq_some.mp hstep
    exact h.stepPipe hrest hstep
  | dup =>
    obtain ⟨hrest, hstep⟩ := Option.ite_none_right_eq_some.mp hstep
    exact h.stepDup hrest hstep
  | takePipes =>
    obtain ⟨hrest, hstep⟩ := Option.ite_none_right_eq_some.mp hstep
    exact h.takePipes hrest hstep
  | fail msg =>
    obtain ⟨hrest, hstep⟩ := Option.ite_none_right_eq_some.mp hstep
    exact h.stepFail hrest hstep
  | work => exact h.work hstep
  | waitChild =>
    obtain ⟨k, hk, rfl⟩ := Option.map_eq_some_iff.mp hstep
    obtain ⟨-, -, hsend, hready, -⟩ := Call.stepWaitChild_eq_some hk
    exact h.of_call (Call.sameEnds_stepWaitChild hk).main hsend hready
  | waitReady => exact h.stepWaitReady hstep
  | send err => exact h.stepSend hstep
  | child a =>
    obtain ⟨k, hk, rfl⟩ := Option.map_eq_some_iff.mp hstep
    obtain ⟨hsend, hready⟩ := Call.workers_stepChild hk
    exact h.of_call (Call.main_stepChild hk) hsend hready
  | assign fd d =>
    obtain ⟨hnone, hstep⟩ := Option.ite_none_right_eq_some.mp hstep
    cases hstep
    exact ⟨h.accounts.assign_other hnone d, h.main, h.sending, h.reading, h.unset⟩
  | close fd =>
    obtain ⟨hnone, hstep⟩ := Option.ite_none_right_eq_some.mp hstep
    cases hstep
    exact ⟨h.accounts.close_other hnone, h.main, h.sending, h.reading, h.unset⟩

/-- A call that has returned holds nothing. -/
theorem Inv.held_eq_nil (h : Inv t w) {res : UpgradeFinished} (hres : w.returned = some res) :
    w.held = [] := by
  obtain ⟨hrest, hres⟩ := Option.ite_none_right_eq_some.mp hres
  have hm := h.main
  unfold MainFacts at hm
  have hnone : w.scope = .nothing ∧ w.sendPipe = none ∧ w.recvReady = none := by
    cases hmain : w.call.main <;> simp_all [Main.result]
  obtain ⟨hscope, hsend, hready⟩ := hnone
  simp [held, mainFds, workerFds, hscope, hsend, hready, hrest, Scope.drops]

/-- **A set-up step can succeed**: it finds the scope it expects, so that it goes on if the
system gives it the numbers it asks for. -/
theorem Inv.setup_enabled (h : Inv t w) {q : Setup} (hmain : w.call.main = .setup q)
    (hrest : w.rest = []) :
    (w.step .main).isSome ∨ (w.step .takePipes).isSome ∨
      (∀ reader writer readEnd writeEnd, w.proc.table reader = none → w.proc.table writer = none →
        writer ≠ reader → (w.step (.pipe reader writer readEnd writeEnd)).isSome) ∨
      ∃ own ∈ w.scope.drops, (w.proc.cloneFd own).isOk = true → (w.step .dup).isSome := by
  have hm := h.main
  simp only [MainFacts, hmain] at hm
  have hdup : ∀ own p scope, (w.proc.cloneFd own).isOk = true → (w.dup own p scope).isSome := by
    intro own p scope hok
    unfold Attempt.dup
    cases hclone : w.proc.cloneFd own with
    | error e =>
      rw [hclone] at hok
      cases hok
    | ok r => rfl
  rcases Scope.fits_cases hm.1 with ⟨rfl, hscope⟩ | ⟨rfl, recv, send, hscope⟩ |
    ⟨rfl, fd, send, hscope⟩ | ⟨rfl, fd, send, recvReady, sendReady, hscope⟩ |
    ⟨rfl | rfl | rfl, recvReady, send, fd, dup, hscope⟩ | ⟨rfl, recvReady, send, hscope⟩ |
    ⟨rfl | rfl, recvReady, hscope⟩
  · refine .inr (.inr (.inl fun reader writer readEnd writeEnd hr hw hne => ?_))
    simp [Attempt.step, Attempt.stepPipe, Attempt.pipe, hrest, hmain, hscope, hr, hw, hne]
  · refine .inr (.inr (.inr ⟨recv, by simp [hscope, Scope.drops], fun hok => ?_⟩))
    simpa [Attempt.step, Attempt.stepDup, hrest, hmain, hscope] using hdup recv _ _ hok
  · refine .inr (.inr (.inl fun reader writer readEnd writeEnd hr hw hne => ?_))
    simp [Attempt.step, Attempt.stepPipe, Attempt.pipe, hrest, hmain, hscope, hr, hw, hne]
  · refine .inr (.inr (.inr ⟨sendReady, by simp [hscope, Scope.drops], fun hok => ?_⟩))
    simpa [Attempt.step, Attempt.stepDup, hrest, hmain, hscope] using hdup sendReady _ _ hok
  · left
    simp [Attempt.step, Attempt.stepMain, Call.stepMain, hrest, hmain]
  · left
    simp [Attempt.step, Attempt.stepMain, Call.stepMain, hrest, hmain]
  · right
    left
    simp [Attempt.step, Attempt.takePipes, hrest, hmain, hscope]
  · left
    simp [Attempt.step, Attempt.stepMain, hrest, hmain, hscope]
  · left
    simp [Attempt.step, Attempt.stepMain, Call.stepMain, hrest, hmain]
  · left
    simp [Attempt.step, Attempt.stepMain, hrest, hmain, hscope]

/-- The next thing that is left to do can be done. -/
theorem Inv.exists_work (h : Inv t w) {op : Op} {ops : List Op} (hrest : w.rest = op :: ops) :
    ∃ w', w.work = some w' ∧ w'.rest = ops ∧ w'.call = w.call := by
  unfold Attempt.work
  rw [hrest]
  cases op with
  | unsetCloexec fd =>
    have hfd : fd ∈ w.scope.drops := h.unset fd (by rw [hrest]; exact List.mem_cons_self)
    have hopen := (h.accounts.held fd (by simp [held, mainFds, hfd])).1
    obtain ⟨d, hd⟩ := Option.isSome_iff_exists.mp hopen
    simp [Proc.unsetCloexec, Table.unsetCloexec, hd]
  | close fd => exact ⟨_, rfl, rfl, rfl⟩

/-- **All that is left to do can be done**, without anybody else. -/
theorem Inv.drains (h : Inv t w) (g : Shared) (p : Proc) :
    ∃ w', (attempt g p).run w (List.replicate w.rest.length .work) = some w' ∧
      w'.rest = [] ∧ w'.call = w.call := by
  induction hn : w.rest generalizing w with
  | nil => exact ⟨w, rfl, hn, rfl⟩
  | cons op ops ih =>
    obtain ⟨w₁, hwork, hrest₁, hcall₁⟩ := h.exists_work hn
    obtain ⟨w', hrun, hrest', hcall'⟩ := ih (h.work hwork) hrest₁
    refine ⟨w', ?_, hrest', hcall'.trans hcall₁⟩
    rw [List.length_cons, List.replicate_succ, TransitionSystem.run_cons]
    have hstep : (attempt g p).step w .work = some w₁ := hwork
    rw [hstep]
    exact hrun

end Attempt

/-- The invariant along a run. -/
theorem inv_of_run {g : Shared} {p : Proc} {es : List Attempt.Event} {w : Attempt}
    (hrun : (attempt g p).run (.init g p) es = some w) :
    Attempt.Inv (es.foldl Attempt.others p.table) w :=
  TransitionSystem.run_tracks (P := fun w t => Attempt.Inv t w)
    (fun _ _ _ _ h hstep => h.step hstep) (Attempt.inv_init g p) hrun

/-- **Every failure can happen, and the call then returns** its error: whenever the main thread
is at a step that can fail, and the step fails, nothing stops it from dropping what it holds. -/
theorem setup_failure_returns {g : Shared} {p : Proc} {es : List Attempt.Event} {w : Attempt}
    (hrun : (attempt g p).run (.init g p) es = some w) {q : Setup}
    (hmain : w.call.main = .setup q)
    (hq : q ∉ [.sendThread, .waitChildThread, .waitReadyThread]) (hrest : w.rest = [])
    (msg : String) :
    ∃ w', (attempt g p).run w (.fail msg :: List.replicate w.scope.drops.length .work) = some w' ∧
      w'.returned = some (.error (.notStarted msg)) := by
  have hfailed : q.failed msg = .aborted q msg := by
    cases q <;> first | rfl | simp at hq
  have hstep : w.step (.fail msg) = some { w with
      call := { w.call with main := .aborted q msg }
      scope := .nothing
      rest := w.scope.drops.map .close } := by
    have hsend : q ≠ .sendThread := fun heq => hq (by simp [heq])
    simp [Attempt.step, Attempt.stepFail, Call.stepFail, hrest, hmain, hsend, hfailed]
  obtain ⟨w', hrun', hrest', hcall⟩ := ((inv_of_run hrun).step hstep).drains g p
  refine ⟨w', ?_, by simp [Attempt.returned, hrest', hcall, Main.result]⟩
  have hstep' : (attempt g p).step w (.fail msg) = _ := hstep
  rw [TransitionSystem.run_cons, hstep']
  simpa using hrun'

/-! ## The functions that make the pipes -/

section

variable {g : Shared} {p q : Proc} {w : Attempt} {reader writer : RawFd} {readEnd writeEnd : ℕ}
  {pipe : PassedPipe}

/-- What `pipeWith` does when it succeeds, call by call. -/
theorem pipeWith_eq_ok {passesReader : Bool}
    (h : p.pipeWith (.made reader writer readEnd writeEnd) passesReader = some (.ok pipe, q)) :
    pipe.kept = (if passesReader then writer else reader) ∧
      ∃ q' r, ((p.openFd reader ⟨readEnd, true⟩).openFd writer ⟨writeEnd, true⟩).cloneFd
          (if passesReader then reader else writer) = .ok (pipe.passed, q') ∧
        q'.unsetCloexec pipe.passed = some r ∧
        q = r.closeFdQuiet (if passesReader then reader else writer) := by
  unfold Proc.pipeWith at h
  dsimp only at h
  split at h
  · cases h
  · rename_i dup q' hclone
    obtain ⟨r, hunset, heq⟩ := Option.map_eq_some_iff.mp h
    cases heq
    exact ⟨rfl, q', r, hclone, hunset, rfl⟩

/-- **`listener_pipes`, call by call**, does what the function does. -/
theorem run_listenerPipes (hmain : w.call.main = .setup .listenerPipe)
    (hscope : w.scope = .nothing) (hrest : w.rest = [])
    (hfree : (PipeEnds.made reader writer readEnd writeEnd).isFree w.proc.table = true)
    (h : w.proc.listenerPipes (.made reader writer readEnd writeEnd) = some (.ok pipe, q)) :
    ∃ w', (attempt g p).run w [.pipe reader writer readEnd writeEnd, .dup, .work, .work] = some w' ∧
      w'.proc = q ∧ w'.scope = .listener pipe.passed pipe.kept ∧ w'.rest = [] ∧
      w'.call.main = .setup .readyPipe := by
  obtain ⟨hkept, q', r, hclone, hunset, rfl⟩ := pipeWith_eq_ok h
  simp only [PipeEnds.isFree, decide_eq_true_eq] at hfree
  simp only [if_true] at hkept hclone
  simp [attempt, TransitionSystem.run, Attempt.step, Attempt.stepPipe, Attempt.pipe, Attempt.openFd,
    Attempt.stepDup, Attempt.dup, Attempt.work, Attempt.closeFd, Call.setupDone, hmain, hscope,
    hrest, hfree, hclone, hunset, hkept]

/-- **`ready_pipes`, call by call**, does what the function does. -/
theorem run_readyPipes {recvListenersFd sendListeners : RawFd}
    (hmain : w.call.main = .setup .readyPipe)
    (hscope : w.scope = .listener recvListenersFd sendListeners) (hrest : w.rest = [])
    (hfree : (PipeEnds.made reader writer readEnd writeEnd).isFree w.proc.table = true)
    (h : w.proc.readyPipes (.made reader writer readEnd writeEnd) = some (.ok pipe, q)) :
    ∃ w', (attempt g p).run w [.pipe reader writer readEnd writeEnd, .dup, .work, .work] = some w' ∧
      w'.proc = q ∧ w'.scope = .pipes pipe.kept sendListeners recvListenersFd pipe.passed ∧
      w'.rest = [] ∧ w'.call.main = .setup .currentDir := by
  obtain ⟨hkept, q', r, hclone, hunset, rfl⟩ := pipeWith_eq_ok h
  simp only [PipeEnds.isFree, decide_eq_true_eq] at hfree
  simp only [Bool.false_eq_true, if_false] at hkept hclone
  simp [attempt, TransitionSystem.run, Attempt.step, Attempt.stepPipe, Attempt.pipe, Attempt.openFd,
    Attempt.stepDup, Attempt.dup, Attempt.work, Attempt.closeFd, Call.setupDone, hmain, hscope,
    hrest, hfree, hclone, hunset, hkept]

end

/-- **An upgrade leaks no descriptor.**  Whatever fails and in whatever order the threads run:
when the call has returned, the table is what the rest of the process has made of it, and so
the one before the call if nobody else has changed it; and every pipe end and duplicate that
the call made was closed exactly once, by its owner. -/
theorem upgrade_leaks_nothing (g : Shared) (p : Proc) (es : List Attempt.Event) {w : Attempt}
    {res : UpgradeFinished} (hrun : (attempt g p).run (.init g p) es = some w)
    (hres : w.returned = some res) :
    w.proc.table = es.foldl Attempt.others p.table ∧
      ((∀ e ∈ es, e.own = true) → w.proc.table = p.table) ∧
      w.titles.spent.Perm (List.range w.titles.issued) ∧
      ∀ r ∈ w.titles.releases, r.title.map Title.owner = some r.actor := by
  have hinv := inv_of_run hrun
  have ha := hinv.accounts
  rw [hinv.held_eq_nil hres] at ha
  obtain ⟨htable, hspent, hrightful⟩ := ha.settled
  exact ⟨htable, fun hown => htable.trans (Attempt.foldl_others hown), hspent, hrightful⟩

/-- A process with the three standard descriptors. -/
def bareProc : Proc := ⟨16, fun fd => if 0 ≤ fd ∧ fd < 3 then some ⟨0, false⟩ else none, [], []⟩

/-- An upgrade that succeeds. -/
def successfulUpgrade : List Attempt.Event :=
  [.main, .pipe 3 4 10 11, .dup, .work, .work, .pipe 3 6 12 13, .dup, .work, .work, .main, .main,
    .takePipes, .work, .work, .main, .main, .main, .child (.write 0x4F), .child (.write 0x4B),
    .waitReady, .waitReady, .send none, .waitChild, .waitChild, .main, .main, .tick 500,
    .waitChild, .waitChild, .waitChild, .waitChild, .main, .main]

/-- An upgrade that cannot duplicate the end of its second pipe. -/
def failedUpgrade : List Attempt.Event :=
  [.main, .pipe 3 4 10 11, .dup, .work, .work, .pipe 3 6 12 13, .fail "EMFILE", .work, .work, .work,
    .work]

/-- Both leave the table as it was. -/
theorem upgrade_leaks_nothing_runs :
    ∃ w w',
      (attempt ⟨false, 0⟩ bareProc).run (.init ⟨false, 0⟩ bareProc) successfulUpgrade = some w ∧
      (attempt ⟨false, 0⟩ bareProc).run (.init ⟨false, 0⟩ bareProc) failedUpgrade = some w' ∧
      (w.returned = some (.ok ()) ∧ w.proc.table = bareProc.table ∧
        w.titles.spent.Perm (List.range 6)) ∧
      w'.returned = some (.error (.notStarted "EMFILE")) ∧ w'.proc.table = bareProc.table ∧
        w'.titles.spent.Perm (List.range 5) := by
  obtain ⟨w, hrun, hw⟩ := TransitionSystem.exists_run (attempt ⟨false, 0⟩ bareProc)
    (.init ⟨false, 0⟩ bareProc) successfulUpgrade
    (fun w => decide (w.returned = some (.ok ())) && decide (w.titles.issued = 6))
    (by decide +kernel)
  obtain ⟨w', hrun', hw'⟩ := TransitionSystem.exists_run (attempt ⟨false, 0⟩ bareProc)
    (.init ⟨false, 0⟩ bareProc) failedUpgrade
    (fun w => decide (w.returned = some (.error (.notStarted "EMFILE"))) &&
      decide (w.titles.issued = 5)) (by decide +kernel)
  simp only [Bool.and_eq_true, decide_eq_true_eq] at hw hw'
  obtain ⟨-, htable, hspent, -⟩ := upgrade_leaks_nothing _ _ _ hrun hw.1
  obtain ⟨-, htable', hspent', -⟩ := upgrade_leaks_nothing _ _ _ hrun' hw'.1
  rw [hw.2] at hspent
  rw [hw'.2] at hspent'
  exact ⟨w, w', hrun, hrun', ⟨hw.1, htable (by decide), hspent⟩, hw'.1, htable' (by decide),
    hspent'⟩

end UpgradePipes
