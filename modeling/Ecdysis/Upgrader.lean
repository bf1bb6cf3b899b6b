/-
# The monitor of the tokio wrapper

The faithful model of `TokioEcdysisUpgrader` (`tokio_ecdysis/mod.rs`) with the triggers
(`trigger.rs`), the run state of the supervisor (`supervisor.rs`) and the notices to
systemd (`systemd_notify.rs`), running beside everything it interacts with: the parent's
registry and descriptors, the calls of the upgrade procedure it starts, one for each
attempt, their children, which claim sockets and call `ready`, and the application,
which goes on making sockets through the `Arc<TokioEcdysis>` it got from `ready`.

`monitor` is a loop: notify systemd that the process is ready, wait for a trigger, and
either stop or attempt an upgrade; a successful attempt ends it, a failed one starts the
loop over.  `World.monitor` is one step of it.  Each step that makes a system call takes
the error of that call as an argument, if there is one.
-/
import Ecdysis.ChildProgram
import Ecdysis.Generations

open Executioner

namespace Upgrader

/-! ## Triggers -/

/-- `ExitCondition`. -/
inductive ExitCondition
  | upgrade
  | stop
  | partialStop
  deriving DecidableEq

/-- `StopOnShutdown`. -/
inductive StopOnShutdown
  | yes
  | no
  deriving DecidableEq

/-- `StopOnShutdown::should_continue`; the run state `none` means run. -/
def StopOnShutdown.shouldContinue : StopOnShutdown → Option ExitCondition → Bool
  | _, none => true
  | _, some .upgrade => false
  | s, some .stop | s, some .partialStop => s = .no

/-- `Trigger`, with what is waiting at it: whether the signal has been delivered since it
was last taken, or the results of accepting on the socket. -/
inductive Trigger
  | signal (kind : ℕ) (pending : Bool)
  | uds (path : PathBuf) (queue : List (Except String ℕ))

/-- `TriggerReason`; an accepted connection is a number. -/
inductive TriggerReason
  | signal (kind : ℕ)
  | unixStream (path : PathBuf) (stream : ℕ)

/-- `ExitReason`. -/
inductive ExitReason
  | signal (kind : ℕ)
  | unixListener (path : PathBuf)

/-- The reason to exit that goes with what was triggered. -/
def TriggerReason.exitReason : TriggerReason → ExitReason
  | .signal kind => .signal kind
  | .unixStream path _ => .unixListener path

/-- `ExitMode`; the systemd client of a partial stop is not represented. -/
inductive ExitMode
  | upgrade
  | fullStop
  | partialStop
  | partialStopWithSystemd
  deriving DecidableEq

/-- `TokioEcdysisUpgradeResult`. -/
abbrev UpgradeResult := Except String (ExitMode × ExitReason)

/-- `Stream for Trigger`: `none` is `Pending`.  The socket of a trigger is supervised, and
stopped by any exit condition. -/
def Trigger.pollNext (run : Option ExitCondition) :
    Trigger → Option (Except String TriggerReason × Trigger)
  | .signal kind true => some (.ok (.signal kind), .signal kind false)
  | .signal _ false => none
  | .uds path queue =>
    if StopOnShutdown.yes.shouldContinue run then
      match queue with
      | [] => none
      | .ok stream :: rest => some (.ok (.unixStream path stream), .uds path rest)
      | .error e :: rest =>
        some (.error ("Unexpected error accepting connection on socket: " ++ e), .uds path rest)
    else some (.error "Socket shut down unexpectedly.", .uds path queue)

/-- `poll_triggers`: the first trigger that is ready, in the order of the list. -/
def pollTriggers (run : Option ExitCondition) : List (Trigger × ExitCondition) →
    Option (Except String (TriggerReason × ExitCondition) × List (Trigger × ExitCondition))
  | [] => none
  | (t, ec) :: ts =>
    match t.pollNext run with
    | some (.ok r, t') => some (.ok (r, ec), (t', ec) :: ts)
    | some (.error e, t') => some (.error e, (t', ec) :: ts)
    | none => (pollTriggers run ts).map fun (r, ts') => (r, (t, ec) :: ts')

/-- What arrives at a trigger: a signal, a connection, or a failure to accept one.
Signals that are not taken coalesce, connections queue. -/
inductive Arrival
  | signal
  | connection (res : Except String ℕ)

/-- The trigger after an arrival; what does not fit the trigger is not for it. -/
def Trigger.receive : Trigger → Arrival → Trigger
  | .signal kind _, .signal => .signal kind true
  | .uds path queue, .connection res => .uds path (queue ++ [res])
  | t, _ => t

/-- What a trigger is, apart from what is waiting at it. -/
def Trigger.source : Trigger → ExitReason
  | .signal kind _ => .signal kind
  | .uds path _ => .unixListener path

/-! ## The state -/

/-- The notices to systemd. -/
inductive Notice
  | ready
  | reloading
  | stopping
  deriving DecidableEq

/-- How `monitor` ends once the triggers have been cleaned up. -/
inductive Ending
  | failed (msg : String)
  | fullStop (reason : ExitReason)
  | partialStop (reason : ExitReason)

/-- What `monitor` returns when `on_shutdown` is done. -/
def Ending.result : Ending → UpgradeResult
  | .failed msg => .error msg
  | .fullStop reason => .ok (.fullStop, reason)
  | .partialStop reason => .ok (.partialStop, reason)

/-- Where `monitor` stands.  `closeUsed` and `stopAll` are the two halves of `quit`,
`cleanUp` and `notifyStopping` those of `on_shutdown`; `reloading` and `snapshot` are the
beginning of `upgrade`, and in `awaiting n` it waits for the result of attempt `n`. -/
inductive Point
  | initializing
  | polling
  | closeUsed (ec : ExitCondition) (reason : ExitReason)
  | stopAll (ec : ExitCondition) (reason : ExitReason)
  | cleanUp (ending : Ending)
  | notifyStopping (ending : Ending)
  | reloading (reason : ExitReason)
  | snapshot (reason : ExitReason)
  | awaiting (n : ℕ) (reason : ExitReason)
  | returned (res : UpgradeResult)

/-- A call of a listening method by the application: its result, the entry it made in the
registry, if any, how many attempts had taken their list by then, and whether it has
returned. -/
structure AppCall where
  result : Listened
  entry : Option ListenerInfo
  attempt : ℕ
  returned : Bool

/-- The parent with its monitor, its attempts and their children.  `sent n` is the list
taken for attempt `n`; `kids n` is what the child of attempt `n` makes of its registry,
once there is one. -/
structure World where
  point : Point
  runState : Option ExitCondition
  triggers : List (Trigger × ExitCondition)
  notifier : Option (List Notice)
  parent : Proc
  attempts : ℕ
  sent : ℕ → List ListenerInfo
  family : Family
  kids : ℕ → Option Life
  calls : List AppCall

namespace World

/-! ## The monitor -/

/-- Send a notice to systemd, if notices are enabled, and go on to `next`; `failed` is
where a failure leads. -/
def notify (w : World) (notice : Notice) (io : Option String) (next : Point)
    (failed : String → Point) : World :=
  match w.notifier with
  | none => { w with point := next }
  | some log =>
    match io with
    | none => { w with notifier := some (log ++ [notice]), point := next }
    | some e => { w with point := failed e }

/-- Where a trigger leads. -/
def dispatch (r : TriggerReason) : ExitCondition → Point
  | .upgrade => .reloading r.exitReason
  | ec => .closeUsed ec r.exitReason

/-- Where `stop_all` leads. -/
def afterQuit (reason : ExitReason) : ExitCondition → Point
  | .upgrade => .returned (.ok (.upgrade, reason))
  | .stop => .cleanUp (.fullStop reason)
  | .partialStop => .cleanUp (.partialStop reason)

/-- The error of an attempt that could not be carried through. -/
def problem (e : String) : Point :=
  .cleanUp (.failed ("Encountered a problem during upgrade: " ++ e))

/-- One step of `monitor`; `io` is the error of the system call it makes, if any.  The PID file
is not here: `write_pidfile`, which `monitor` calls after a failed attempt, returns or panics
(`PidFileWrite`), and here it returns. -/
def monitor (w : World) (io : Option String) : Option World :=
  match w.point with
  | .initializing => some (w.notify .ready io .polling fun e => .returned (.error e))
  | .polling =>
    match pollTriggers w.runState w.triggers with
    | none => none
    | some (.ok (r, ec), ts) => some { w with triggers := ts, point := dispatch r ec }
    | some (.error e, ts) =>
      some { w with
        triggers := ts
        point := .cleanUp (.failed ("Encountered error while polling triggers: " ++ e)) }
  | .closeUsed ec reason =>
    some { w with parent := w.parent.closeUsed, point := .stopAll ec reason }
  | .stopAll ec reason => some { w with runState := some ec, point := afterQuit reason ec }
  | .cleanUp ending =>
    match w.triggers with
    | [] =>
      match ending with
      -- a partial stop ends without a notice
      | .partialStop reason =>
        let mode := if w.notifier.isSome then .partialStopWithSystemd else .partialStop
        some { w with point := .returned (.ok (mode, reason)) }
      | _ => some { w with point := .notifyStopping ending }
    | (.signal _ _, _) :: ts => some { w with triggers := ts }
    | (.uds _ _, _) :: ts =>
      match io with
      | none => some { w with triggers := ts }
      -- the other triggers are dropped with the drain, their paths stay
      | some e => some { w with triggers := [], point := .returned (.error e) }
  | .notifyStopping ending =>
    some (w.notify .stopping io (.returned ending.result) fun e => .returned (.error e))
  | .reloading reason => some (w.notify .reloading io (.snapshot reason) problem)
  | .snapshot reason =>
    some { w with
      sent := Function.update w.sent w.attempts w.parent.getFdsForChild
      attempts := w.attempts + 1
      point := .awaiting w.attempts reason }
  | .awaiting n reason =>
    match (w.family.sys.comp n).main with
    | .panicked => some { w with point := problem "channel closed" }
    | main =>
      match main.result with
      | none => none
      | some (.ok ()) => some { w with point := .closeUsed .upgrade reason }
      -- `write_pidfile`, and back to the start of the loop, for another notice that the
      -- process is ready
      | some (.error _) => some { w with point := .initializing }
  | .returned _ => none

/-! ## Everything else -/

/-- Only attempts that have been started act, and a child that calls `ready` has read its
list. -/
def enabled (w : World) : Family.Event → Bool
  | .thread (.env _) => true
  | .thread (.act n _) | .notify n | .close n | .exit n => n < w.attempts
  | .ready n => n < w.attempts ∧ (w.kids n).isSome

/-- A child calls `ready` as an event of its family. -/
def isReady : Life.Event → Bool
  | .ready => true
  | _ => false

/-- The children after an event of the family: when an attempt spawns its child, that is a
process started with the list of the attempt; `ready` closes what it has not claimed. -/
def kidsAfter (w : World) : Family.Event → ℕ → Option Life
  | .thread (.act n .main) =>
    if (w.family.sys.comp n).main = .setup .spawn then
      Function.update w.kids n ((w.parent.spawnChild (w.sent n)).map Life.init)
    else w.kids
  | .ready n => Function.update w.kids n ((w.kids n).bind fun life => life.step .ready)
  | _ => w.kids

/-- What can happen. -/
inductive Event
  | monitor (io : Option String)
  | arrive (i : ℕ) (a : Arrival)
  | family (e : Family.Event)
  | kid (n : ℕ) (e : Life.Event)
  | listen (r : Request)
  | returns (i : ℕ)
  | openFd (fd : RawFd) (d : Desc)
  | closeFd (fd : RawFd)

/-- One step; the application opens and closes numbers of its own only. -/
def step (w : World) : Event → Option World
  | .monitor io => w.monitor io
  | .arrive i a =>
    some { w with triggers := w.triggers.modify i fun t => (t.1.receive a, t.2) }
  | .family e =>
    if w.enabled e then
      (w.family.step e).map fun F => { w with family := F, kids := w.kidsAfter e }
    else none
  | .kid n e =>
    if (w.family.sys.comp n).child.alive ∧ isReady e = false then
      ((w.kids n).bind fun life => life.step e).map fun life =>
        { w with kids := Function.update w.kids n (some life) }
    else none
  | .listen r =>
    if r.creation.avoids w.parent.registered then
      (w.parent.listen r).map fun (res, p) =>
        { w with
          parent := p
          calls := w.calls ++
            [⟨res, (p.usedFds.drop w.parent.usedFds.length).head?, w.attempts, false⟩] }
    else none
  | .returns i => some { w with calls := w.calls.modify i fun c => { c with returned := true } }
  | .openFd fd d =>
    if fd ∉ w.parent.registered then some { w with parent := w.parent.openFd fd d } else none
  | .closeFd fd =>
    if fd ∉ w.parent.registered then some { w with parent := w.parent.closeFdQuiet fd } else none

end World

/-- The start of `monitor` in a process that has called `ready`. -/
def World.init (parent : Proc) (triggers : List (Trigger × ExitCondition))
    (notifier : Option (List Notice)) : World where
  point := .initializing
  runState := none
  triggers := triggers
  notifier := notifier
  parent := parent
  attempts := 0
  sent := fun _ => []
  family := .init
  kids := fun _ => none
  calls := []

/-- All interleavings of the monitor with the rest, from a process whose registry is
well-formed and has nothing unclaimed. -/
def world (parent : Proc) (triggers : List (Trigger × ExitCondition))
    (notifier : Option (List Notice)) : TransitionSystem World World.Event where
  Init := fun w => parent.WF ∧ parent.inheritedFds = [] ∧
    w = World.init parent triggers notifier
  step := World.step

end Upgrader
