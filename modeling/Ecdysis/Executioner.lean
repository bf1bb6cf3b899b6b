/-
# The upgrade procedure and its threads

The faithful model of `executioner.rs`: a call of `upgrade` is a main thread that
takes the `UPGRADING` flag, sets up pipes and the child, starts three worker
threads (`send_fds`, `wait_child`, `wait_ready`) and joins them; the child is a
process that may write bytes to its ready pipe, close it and exit at any moment.

Any number of calls run in one process.  They share the flag `UPGRADING`
(`Shared.upgrading`) and the clock (`Shared.now`, in milliseconds); everything
else a call touches is its own (`Call`).  `Call.act` is one atomic step of one of
its threads or of its child, and `system` interleaves the steps of all calls with
the passing of time.

Each call carries a `log` of what its worker threads observed (bytes read, results
of `try_wait`, `kill`, `wait`), in the order in which it happened; no step reads it.
-/
import Ecdysis.Interleaving

namespace Executioner

/-! ## Data -/

/-- `UpgradeError`; an `io::Error` or a bincode error enters as its `Debug` text. -/
inductive UpgradeError
  | childExit
  | childTimeout
  | notStarted (msg : String)
  | serializationError (msg : String)
  deriving DecidableEq, Repr

/-- `UpgradeFinished`. -/
abbrev UpgradeFinished := Except UpgradeError Unit

/-- The fallible steps between winning the flag and joining the workers, in
program order: `listener_pipes` and `ready_pipes` (a pipe and a duplicate each),
`exec_upgraded` (the working directory, then the spawn) and the three threads. -/
inductive Setup
  | listenerPipe
  | listenerDup
  | readyPipe
  | readyDup
  | currentDir
  | spawn
  | sendThread
  | waitChildThread
  | waitReadyThread
  deriving DecidableEq, Repr

/-- Where the main thread of `upgrade` stands.  The last four are final: `refused`
is the early return of a call that lost the swap, `aborted` the return by `?` of a
set-up step that failed, `panicked` the unwinding out of a failed `thread::spawn`. -/
inductive Main
  | start
  | setup (p : Setup)
  | joinReady
  | store (res : UpgradeFinished)
  | joinChild (res : UpgradeFinished)
  | joinSend (res : UpgradeFinished)
  | refused
  | aborted (p : Setup) (msg : String)
  | returned (res : UpgradeFinished)
  | panicked
  deriving DecidableEq

/-- Where the thread `wait_child` stands; `begun` is the value of `start`. -/
inductive WaitChild
  | idle
  | entry
  | test (begun : ℕ)
  | sleep (begun wake : ℕ)
  | poll (begun : ℕ)
  | load (begun : ℕ)
  | final
  | kill
  | wait
  | done (res : UpgradeFinished)
  deriving DecidableEq

/-- Where the thread `wait_ready` stands; `buf` is what `read_exact` has so far. -/
inductive WaitReady
  | idle
  | reading (buf : List UInt8)
  | done (res : UpgradeFinished)
  deriving DecidableEq

/-- Where the thread `send_fds` stands. -/
inductive Send
  | idle
  | running
  | done (res : UpgradeFinished)
  deriving DecidableEq

/-- The child process.  After `kill` it is `signalled` until the signal takes
effect; a dead child is a zombie until `wait` or `try_wait` collects it. -/
inductive Child
  | unborn
  | running
  | signalled
  | dead
  | reaped
  deriving DecidableEq, Repr

/-- The child process exists and has not terminated. -/
def Child.alive : Child → Bool
  | .running | .signalled => true
  | _ => false

/-- The ready pipe: bytes written and not yet read, and whether the child still
holds the write end.  No other process gets it. -/
structure ReadyPipe where
  buffer : List UInt8
  writerOpen : Bool
  deriving DecidableEq

/-- What the worker threads observed. -/
inductive Record
  | read (b : UInt8)
  | tryWait (running : Bool)
  | kill
  | wait
  deriving DecidableEq

/-- One call of `upgrade`: its threads, its child, its ready pipe and its log. -/
structure Call where
  main : Main
  waitChild : WaitChild
  waitReady : WaitReady
  send : Send
  child : Child
  ready : ReadyPipe
  log : List Record

/-- A call that has not been made yet. -/
def Call.init : Call := ⟨.start, .idle, .idle, .idle, .unborn, ⟨[], false⟩, []⟩

/-- What all calls share: the flag `UPGRADING` and the clock. -/
structure Shared where
  upgrading : Bool
  now : ℕ
  deriving DecidableEq

/-- `b"OK"`. -/
def okBytes : List UInt8 := [0x4F, 0x4B]

/-- The `timeout` of `wait_child`, in milliseconds. -/
def timeoutMs : ℕ := 5000

/-- The pause of `wait_child` between two polls, in milliseconds. -/
def sleepMs : ℕ := 500

/-- The result a call has returned, if it has returned. -/
def Main.result : Main → Option UpgradeFinished
  | .refused => some (.error (.notStarted "Already in upgrade"))
  | .aborted _ msg => some (.error (.notStarted msg))
  | .returned res => some res
  | _ => none

/-- The bytes the ready pipe has delivered to `wait_ready`, in order. -/
def delivered (log : List Record) : List UInt8 :=
  log.filterMap fun
    | .read b => some b
    | _ => none

/-- All bytes the child has written: those delivered and those still buffered. -/
def Call.written (k : Call) : List UInt8 := delivered k.log ++ k.ready.buffer

/-! ## The threads -/

/-- What the main thread does when a set-up step succeeds. -/
def Call.setupDone (k : Call) : Setup → Call
  | .listenerPipe => { k with main := .setup .listenerDup }
  | .listenerDup => { k with main := .setup .readyPipe }
  | .readyPipe => { k with main := .setup .readyDup }
  | .readyDup => { k with main := .setup .currentDir }
  | .currentDir => { k with main := .setup .spawn }
  | .spawn => { k with main := .setup .sendThread, child := .running, ready := ⟨[], true⟩ }
  | .sendThread => { k with main := .setup .waitChildThread, send := .running }
  | .waitChildThread => { k with main := .setup .waitReadyThread, waitChild := .entry }
  | .waitReadyThread => { k with main := .joinReady, waitReady := .reading [] }

/-- Where a set-up step that fails leads: the `?` of the first six returns the
error, a failing `thread::spawn` panics. -/
def Setup.failed (msg : String) : Setup → Main
  | .sendThread | .waitChildThread | .waitReadyThread => .panicked
  | p => .aborted p msg

/-- One step of the main thread; a join blocks until the joined thread is done. -/
def Call.stepMain (g : Shared) (k : Call) : Option (Shared × Call) :=
  match k.main with
  | .start =>
    if g.upgrading then some (g, { k with main := .refused })
    else some ({ g with upgrading := true }, { k with main := .setup .listenerPipe })
  | .setup p => some (g, k.setupDone p)
  | .joinReady =>
    match k.waitReady with
    | .done res => some (g, { k with main := .store res })
    | _ => none
  -- the flag is cleared here, with `wait_child` still to be joined
  | .store res => some ({ g with upgrading := false }, { k with main := .joinChild res })
  | .joinChild res =>
    match k.waitChild with
    | .done (.ok ()) => some (g, { k with main := .joinSend res })
    -- the error of `wait_child` overwrites what `wait_ready` said
    | .done (.error e) => some (g, { k with main := .joinSend (.error e) })
    | _ => none
  | .joinSend res =>
    match k.send with
    -- the result of `send_fds` is not looked at
    | .done _ => some (g, { k with main := .returned res })
    | _ => none
  | .refused | .aborted _ _ | .returned _ | .panicked => none

/-- The set-up step the main thread is at fails. -/
def Call.stepFail (k : Call) (msg : String) : Option Call :=
  match k.main with
  | .setup p => some { k with main := p.failed msg }
  | _ => none

/-- `proc_wait`: `try_wait` reports a live child as running and collects a dead one.
`ifRunning` is where the thread continues when the result is `Ok(())`. -/
def Call.procWait (k : Call) (ifRunning : WaitChild) : Call :=
  if k.child.alive then
    { k with waitChild := ifRunning, log := k.log ++ [.tryWait true] }
  else
    { k with
      waitChild := .done (.error .childExit)
      child := .reaped
      log := k.log ++ [.tryWait false] }

/-- One step of `wait_child`.  `unpark` does not wake `thread::sleep`, so a sleeping
thread waits for the clock; `wait` blocks until the child has terminated. -/
def Call.stepWaitChild (g : Shared) (k : Call) : Option Call :=
  match k.waitChild with
  | .entry => some { k with waitChild := .test g.now }
  | .test begun =>
    if g.now - begun < timeoutMs then
      some { k with waitChild := .sleep begun (g.now + sleepMs) }
    else some { k with waitChild := .kill }
  | .sleep begun wake => if wake ≤ g.now then some { k with waitChild := .poll begun } else none
  | .poll begun => some (k.procWait (.load begun))
  | .load begun =>
    -- any call's store is seen here, not only the one of this call
    if g.upgrading then some { k with waitChild := .test begun }
    else some { k with waitChild := .final }
  | .final => some (k.procWait (.done (.ok ())))
  | .kill =>
    some { k with
      waitChild := .wait
      child := if k.child = .running then .signalled else k.child
      log := k.log ++ [.kill] }
  | .wait =>
    if k.child.alive then none
    else some { k with
      waitChild := .done (.error .childTimeout)
      child := .reaped
      log := k.log ++ [.wait] }
  | .idle | .done _ => none

/-- The verdict of `wait_ready` on the two bytes it has read. -/
def readyVerdict (buf : List UInt8) : UpgradeFinished :=
  if buf = okBytes then .ok () else .error .childExit

/-- One step of `wait_ready`: a byte arrives, or `read_exact` meets the end of the
pipe, or it blocks. -/
def Call.stepWaitReady (k : Call) : Option Call :=
  match k.waitReady with
  | .reading buf =>
    match k.ready.buffer with
    | b :: rest =>
      let buf' := buf ++ [b]
      some { k with
        waitReady := if buf'.length = 2 then .done (readyVerdict buf') else .reading buf'
        ready := { k.ready with buffer := rest }
        log := k.log ++ [.read b] }
    | [] =>
      -- the end of the pipe is reported as an exit of the child, whether it exited or not
      if k.ready.writerOpen then none
      else some { k with waitReady := .done (.error .childExit) }
  | .idle | .done _ => none

/-- The end of `send_fds`, with the error of `serialize_into` if there is one. -/
def Call.stepSend (k : Call) (err : Option String) : Option Call :=
  match k.send with
  | .running =>
    some { k with send := .done (match err with
      | none => .ok ()
      | some e => .error (.serializationError e)) }
  | .idle | .done _ => none

/-- What the child can do to the pipe and to itself. -/
inductive ChildAct
  | write (b : UInt8)
  | close
  | exit
  deriving DecidableEq

/-- One step of the child.  Its exit ends the ready pipe, whose write end it alone has. -/
def Call.stepChild (k : Call) (a : ChildAct) : Option Call :=
  if k.child.alive then
    match a with
    | .write b =>
      if k.ready.writerOpen then
        some { k with ready := { k.ready with buffer := k.ready.buffer ++ [b] } }
      else none
    | .close => some { k with ready := { k.ready with writerOpen := false } }
    | .exit => some { k with child := .dead, ready := { k.ready with writerOpen := false } }
  else none

/-! ## The system of all calls -/

/-- An action of one call: a step of one of its threads, with the outcome of the
operating-system calls it makes, or of its child. -/
inductive Act
  | main
  | fail (msg : String)
  | waitChild
  | waitReady
  | send (err : Option String)
  | child (a : ChildAct)
  deriving DecidableEq

/-- One atomic step of a call. -/
def Call.act (g : Shared) (k : Call) : Act → Option (Shared × Call)
  | .main => k.stepMain g
  | .fail msg => (k.stepFail msg).map (g, ·)
  | .waitChild => (k.stepWaitChild g).map (g, ·)
  | .waitReady => k.stepWaitReady.map (g, ·)
  | .send err => (k.stepSend err).map (g, ·)
  | .child a => (k.stepChild a).map (g, ·)

/-- The calls as interleaved components; the environment lets time pass. -/
def calls : Interleaving Shared Call Act ℕ where
  act := Call.act
  env := fun g ms => some { g with now := g.now + ms }

/-- A state of all calls made in the process, numbered from `0`. -/
abbrev Sys := Interleaving.State ℕ Shared Call

/-- An event: a call acts, or time passes. -/
abbrev Event := Interleaving.Event ℕ Act ℕ

/-- All interleavings of any number of calls of `upgrade`, `UPGRADING` being
`false` at first. -/
def system : TransitionSystem Sys Event := calls.system ℕ ⟨false, 0⟩ Call.init

/-- The state before any call is made. -/
def Sys.init : Sys := ⟨⟨false, 0⟩, fun _ => Call.init⟩

theorem reachable_init : system.Reachable Sys.init := TransitionSystem.Reachable.init rfl

end Executioner
