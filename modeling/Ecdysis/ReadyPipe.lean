/-
# The ready pipe of an upgrade

A call of `upgrade` as in `Executioner`, over the processes and descriptors of `WriteEnd`: the
main thread sets up the ready pipe by system calls, and `wait_ready` meets the end of the pipe
when the descriptor tables say so.

* `World.Inv.step` : as long as nobody but the child gets the write end, the call is one of
  `Executioner`.
* `ready_pipe_confined_iff` : this is so exactly when the parent starts no other command
  between `unset_cloexec` and `take_pipes`, and the child none before it has closed its end;
  then, when the child has died, `wait_ready` meets the end and `upgrade` can return.
-/
import Ecdysis.UpgradeInvariant
import Ecdysis.WriteEnd

open Executioner

namespace WriteEnd

/-! ## The upgrade -/

/-- A call of `upgrade`, with the flag and the clock, and the kernel. -/
structure World where
  shared : Shared
  call : Call
  kernel : Kernel

/-- What can happen: time passes, other calls of `upgrade` set the flag, this one takes a
step, by system call where it sets up the ready pipe, and the processes do other things. -/
inductive Event
  | tick (ms : ℕ)
  | flag (b : Bool)
  | main
  | pipe (reader writer : RawFd) (readEnd writeEnd : ℕ)
  | clone
  | unset
  | dropWriter
  | execUpgraded (fds : List RawFd)
  | takePipes
  | fail (msg : String)
  | waitChild
  | waitReady
  | send (err : Option String)
  | child (a : ChildAct)
  | spawn (pid : Pid) (n : ℕ) (fds : List RawFd)
  | exit (n : ℕ)
  | assign (pid : Pid) (fd : RawFd) (d : Desc)
  | close (pid : Pid) (fd : RawFd)

namespace World

/-- The next step of the main thread has nothing to do with the ready pipe. -/
def elsewhere (w : World) : Bool :=
  match w.call.main, w.kernel.ends with
  | .setup .readyPipe, _ | .setup .readyDup, _ | .setup .spawn, _ => false
  | .setup .sendThread, .passed _ _ => false
  | _, _ => true

/-- The next step of the main thread can fail: `unset_cloexec` and `take_pipes` cannot. -/
def fallible (w : World) : Bool :=
  match w.call.main, w.kernel.ends with
  | .setup .readyDup, .cloned _ _ _ | .setup .readyDup, .unset _ _ _ => false
  | .setup .sendThread, .passed _ _ => false
  | _, _ => true

/-- A system call of the main thread while it is at the set-up step `p`. -/
def during (w : World) (p : Setup) (q : Option Kernel) : Option World :=
  if w.call.main = .setup p then q.map fun q' => { w with kernel := q' } else none

/-- The last system call of the set-up step `p`. -/
def finish (w : World) (p : Setup) (q : Option Kernel) : Option World :=
  (w.during p q).map fun w' => { w' with call := w'.call.setupDone p }

/-- `wait_ready`: whether an empty pipe has ended depends on all processes.  The reader is
dropped when the thread is done. -/
def stepWaitReady (w : World) : Option World :=
  let k := { w.call with ready := { w.call.ready with writerOpen := w.kernel.held } }
  k.stepWaitReady.bind fun k' =>
    let k'' := { k' with ready := { k'.ready with writerOpen := w.call.ready.writerOpen } }
    match k'.waitReady with
    | .done _ => w.kernel.dropEnds.map fun q => { w with call := k'', kernel := q }
    | _ => some { w with call := k'' }

/-- One step. -/
def step (w : World) : Event → Option World
  | .tick ms => some { w with shared := { w.shared with now := w.shared.now + ms } }
  -- nobody else touches the flag while this call owns it
  | .flag b =>
    if w.call.main.owns then none else some { w with shared := { w.shared with upgrading := b } }
  | .main =>
    if w.elsewhere then
      (w.call.stepMain w.shared).map fun (g, k) => { w with shared := g, call := k }
    else none
  | .pipe reader writer readEnd writeEnd =>
    w.finish .readyPipe (w.kernel.pipe reader writer readEnd writeEnd)
  | .clone => w.during .readyDup w.kernel.clone
  | .unset => w.during .readyDup w.kernel.unset
  | .dropWriter => w.finish .readyDup w.kernel.dropWriter
  | .execUpgraded fds => w.finish .spawn (w.kernel.execUpgraded fds)
  | .takePipes => w.during .sendThread w.kernel.takePipes
  | .fail msg =>
    if w.fallible then
      (w.call.stepFail msg).bind fun k =>
        w.kernel.dropEnds.map fun q => { w with call := k, kernel := q }
    else none
  | .waitChild => (w.call.stepWaitChild w.shared).map fun k => { w with call := k }
  | .waitReady => w.stepWaitReady
  | .send err => (w.call.stepSend err).map fun k => { w with call := k }
  | .child a => (w.call.stepChild a).bind fun k =>
      (w.kernel.childAct a).map fun q => { w with call := k, kernel := q }
  | .spawn pid n fds => (w.kernel.spawn pid n fds).map fun q => { w with kernel := q }
  | .exit n => (w.kernel.exit n).map fun q => { w with kernel := q }
  | .assign pid fd d => (w.kernel.assign pid fd d).map fun q => { w with kernel := q }
  | .close pid fd => (w.kernel.close pid fd).map fun q => { w with kernel := q }

/-- Before the call: the parent is there, with any descriptors, and any other processes. -/
structure Start (w : World) : Prop where
  call : w.call = .init
  ends : w.kernel.ends = .unmade
  writeEnd : w.kernel.writeEnd = none
  childEnd : w.kernel.childEnd = none
  parent : (w.kernel.procs.get .parent).isSome
  child : w.kernel.procs.get .child = none

end World

/-- All that can happen from `w₀` on. -/
def world (w₀ : World) : TransitionSystem World Event where
  Init := fun w => w = w₀
  step := World.step

/-! ## The upgrade and its pipe -/

/-- The child has been started. -/
def late : Main → Bool
  | .setup .sendThread | .setup .waitChildThread | .setup .waitReadyThread => true
  | .joinReady | .store _ | .joinChild _ | .joinSend _ | .returned _ => true
  | _ => false

/-- Once the child has been started, `take_pipes` is the next step or behind. -/
def Fits (m : Main) (e : Ends) : Prop :=
  late m = true →
    e.beforeTake = false ∨ m = .setup .sendThread ∧ ∃ reader dup, e = .passed reader dup

namespace World

variable {w w' : World} {e : Event}

/-- The call is one of `Executioner`, the write end is where it should be, and the two
agree about the child and its end of the pipe. -/
structure Inv (w : World) : Prop where
  sole : w.kernel.Sole
  coherent : w.call.Coherent
  started : w.call.Started
  owns : w.call.main.owns = true → w.shared.upgrading = true
  writer : w.call.ready.writerOpen = w.kernel.childEnd.isSome
  child : w.call.child.alive = (w.kernel.procs.get .child).isSome
  parent : (w.kernel.procs.get .parent).isSome
  fits : Fits w.call.main w.kernel.ends

/-- The condition: a command is started only by a process that does not have the write end
open without the flag. -/
def undisturbed (w : World) : Event → Bool
  | .spawn pid _ _ => w.kernel.spares pid
  | _ => true

theorem Start.inv (h : w.Start) : w.Inv := by
  obtain ⟨hcall, hends, hw, hend, hparent, hchild⟩ := h
  have hnot : ∀ pid fd, ¬ w.kernel.Holds pid fd := by
    rintro pid fd ⟨d, -, hd⟩
    rw [hw] at hd
    cases hd
  refine ⟨⟨fun fd => ?_, fun fd => ?_, fun n => hnot _, ?_, ?_, ?_, ?_, fun _ => hw⟩,
    hcall ▸ Call.coherent_init, hcall ▸ trivial, ?_, ?_, ?_, hparent, ?_⟩
  · simp [hnot, hends, Ends.writers, Ends.shielded, Ends.exposed]
  · simp [hnot, hend]
  · simp [hends, Ends.shielded]
  · simp [hends, Ends.exposed]
  · simp [hend]
  · simp [hends, Ends.writers, Ends.shielded, Ends.exposed]
  · simp [hcall, Call.init, Main.owns]
  · simp [hcall, Call.init, hend]
  · simp [hcall, Call.init, hchild, Child.alive]
  · simp [hcall, Call.init, Fits, late]

/-- A step of the call keeps what holds of it, whatever it does to the kernel. -/
theorem Inv.of_act (h : w.Inv) {a : Act} {g : Shared} {k : Call} {q : Kernel}
    (hact : w.call.act w.shared a = some (g, k)) (hsole : q.Sole)
    (hwriter : k.ready.writerOpen = q.childEnd.isSome)
    (hchild : k.child.alive = (q.procs.get .child).isSome)
    (hparent : (q.procs.get .parent).isSome) (hfits : Fits k.main q.ends) :
    Inv ⟨g, k, q⟩ := by
  refine ⟨hsole, h.coherent.act h.owns hact, h.started.act hact, fun howns => ?_, hwriter, hchild,
    hparent, hfits⟩
  rcases Call.act_flag hact with ⟨-, -, -, rfl⟩ | ⟨res, -, hmain, -⟩ | ⟨rfl, heq⟩
  · rfl
  · simp [hmain, Main.owns] at howns
  · exact h.owns (heq ▸ howns)

/-- So does a step of the kernel alone. -/
theorem Inv.of_kernel (h : w.Inv) {q : Kernel} (hsole : q.Sole) (hsteady : w.kernel.Steady q)
    (hfits : Fits w.call.main q.ends) : Inv { w with kernel := q } :=
  ⟨hsole, h.coherent, h.started, h.owns, h.writer.trans (by rw [hsteady.childEnd]),
    h.child.trans hsteady.child.symm, hsteady.parent ▸ h.parent, hfits⟩

/-- A step of the main thread that has nothing to do with the pipe. -/
theorem stepMain_elsewhere (h : w.elsewhere = true) (hfits : Fits w.call.main w.kernel.ends)
    {g : Shared} {k : Call} (hstep : w.call.stepMain w.shared = some (g, k)) :
    k.ready = w.call.ready ∧ k.child = w.call.child ∧ Fits k.main w.kernel.ends ∧
      (late w.call.main = true → late k.main = true) := by
  unfold Call.stepMain at hstep
  unfold elsewhere at h
  unfold Fits at hfits ⊢
  cases hm : w.call.main with
  | setup p =>
    simp only [hm, Option.some.injEq, Prod.mk.injEq] at hstep
    obtain ⟨-, rfl⟩ := hstep
    cases p with
    | sendThread =>
      -- `take_pipes` is behind
      refine ⟨rfl, rfl, fun _ => .inl ?_, fun _ => rfl⟩
      rcases hfits (by simp [hm, late]) with htaken | ⟨-, reader, dup, hends⟩
      · exact htaken
      · simp [hm, hends] at h
    | waitChildThread | waitReadyThread =>
      refine ⟨rfl, rfl, fun _ => .inl ?_, fun _ => rfl⟩
      simpa [hm, late] using hfits
    | readyPipe | readyDup | spawn => simp [hm] at h
    | listenerPipe | listenerDup | currentDir =>
      exact ⟨rfl, rfl, by simp [Call.setupDone, late], by simp [late]⟩
  | start =>
    simp only [hm] at hstep
    split at hstep <;> cases hstep <;> exact ⟨rfl, rfl, by simp [late], by simp [late]⟩
  | joinReady | joinChild res | joinSend res =>
    simp only [hm] at hstep hfits
    split at hstep <;> cases hstep <;>
      exact ⟨rfl, rfl, fun _ => by simpa [late] using hfits, fun _ => rfl⟩
  | store res =>
    simp only [hm] at hstep hfits
    cases hstep
    exact ⟨rfl, rfl, fun _ => by simpa [late] using hfits, fun _ => rfl⟩
  | _ => simp [hm] at hstep

theorem during_eq_some {p : Setup} {q : Option Kernel} (h : w.during p q = some w') :
    w.call.main = .setup p ∧ ∃ q', q = some q' ∧ w' = { w with kernel := q' } := by
  unfold during at h
  split at h
  · rename_i hmain
    obtain ⟨q', hq, rfl⟩ := Option.map_eq_some_iff.mp h
    exact ⟨hmain, q', hq, rfl⟩
  · cases h

/-- The last system call of a set-up step is a step of the main thread. -/
theorem finish_eq_some {p : Setup} {q : Option Kernel} (h : w.finish p q = some w') :
    w.call.main = .setup p ∧ w.call.act w.shared .main = some (w.shared, w.call.setupDone p) ∧
      ∃ q', q = some q' ∧ w' = ⟨w.shared, w.call.setupDone p, q'⟩ := by
  obtain ⟨w₁, hduring, rfl⟩ := Option.map_eq_some_iff.mp h
  obtain ⟨hmain, q', hq, rfl⟩ := during_eq_some hduring
  exact ⟨hmain, by simp [Call.act, Call.stepMain, hmain], q', hq, rfl⟩

/-- `wait_ready` runs only after `take_pipes`, so the child alone decides whether the pipe has
ended. -/
theorem Inv.held_eq (h : w.Inv) {buf : List UInt8} (hread : w.call.waitReady = .reading buf) :
    w.kernel.ends.beforeTake = false ∧ w.kernel.held = w.call.ready.writerOpen := by
  have hmain := h.coherent.main.joinReady_of_reading hread
  have htaken : w.kernel.ends.beforeTake = false := by
    rcases h.fits (by simp [hmain, late]) with htaken | ⟨hsend, -⟩
    · exact htaken
    · rw [hmain] at hsend
      cases hsend
  refine ⟨htaken, ?_⟩
  rw [h.writer, Bool.eq_iff_iff, Kernel.held_iff, Option.isSome_iff_exists]
  constructor
  · rintro ⟨pid, fd, hold⟩
    rcases h.sole.confined pid fd hold with rfl | ⟨rfl, hbefore⟩
    · exact ⟨fd, (h.sole.child fd).mp hold⟩
    · rw [htaken] at hbefore
      cases hbefore
  · rintro ⟨fd, hfd⟩
    exact ⟨.child, fd, (h.sole.child fd).mpr hfd⟩

/-- **A step of `wait_ready`** is one of `Executioner`'s. -/
theorem Inv.stepWaitReady (h : w.Inv) (hstep : w.stepWaitReady = some w') :
    ∃ k, w.call.stepWaitReady = some k ∧ w'.shared = w.shared ∧ w'.call = k ∧
      (w'.kernel = w.kernel ∨ w.kernel.dropEnds = some w'.kernel) := by
  unfold World.stepWaitReady at hstep
  obtain ⟨k, hk, hstep⟩ := Option.bind_eq_some_iff.mp hstep
  have hread : ∃ buf, w.call.waitReady = .reading buf := by
    unfold Call.stepWaitReady at hk
    cases hwr : w.call.waitReady with
    | reading buf => exact ⟨buf, rfl⟩
    | idle | done res => simp [hwr] at hk
  obtain ⟨buf, hread⟩ := hread
  have hsame : { w.call with ready := { w.call.ready with writerOpen := w.kernel.held } }
      = w.call := by
    rw [(h.held_eq hread).2]
  rw [hsame] at hk
  have hk' : { k with ready := { k.ready with writerOpen := w.call.ready.writerOpen } } = k := by
    rw [← (Call.sameEnds_stepWaitReady hk).writerOpen]
  dsimp only at hstep
  rw [hk'] at hstep
  split at hstep
  · obtain ⟨q, hdrop, rfl⟩ := Option.map_eq_some_iff.mp hstep
    exact ⟨k, hk, rfl, rfl, .inr hdrop⟩
  · cases hstep
    exact ⟨k, hk, rfl, rfl, .inl rfl⟩

/-- The child and its end of the pipe, in the call and in the kernel. -/
theorem Inv.childAct (h : w.Inv) {a : ChildAct} {k : Call} {q : Kernel}
    (hcall : w.call.stepChild a = some k) (hact : w.kernel.childAct a = some q) :
    k.ready.writerOpen = q.childEnd.isSome ∧ k.child.alive = (q.procs.get .child).isSome ∧
      (q.procs.get .parent).isSome ∧ q.ends = w.kernel.ends := by
  unfold Call.stepChild at hcall
  split at hcall
  · cases a with
    | write b =>
      simp only [Kernel.childAct] at hcall hact
      split at hcall <;> cases hcall
      split at hact <;> cases hact
      exact ⟨h.writer, h.child, h.parent, rfl⟩
    | close =>
      cases hcall
      obtain ⟨fd, -, hact⟩ := Option.bind_eq_some_iff.mp hact
      obtain ⟨q₁, hupdate, rfl⟩ := Option.map_eq_some_iff.mp hact
      obtain ⟨t, ht, rfl⟩ := Option.map_eq_some_iff.mp hupdate
      refine ⟨rfl, h.child.trans ?_, ?_, rfl⟩
      · simp [ht]
      · simpa using h.parent
    | exit =>
      cases hcall
      cases hact
      exact ⟨rfl, by simp [Child.alive], by simpa using h.parent, rfl⟩
  · cases hcall

/-- The child is started. -/
theorem Inv.execUpgraded (h : w.Inv) {fds : List RawFd}
    (hstep : w.finish .spawn (w.kernel.execUpgraded fds) = some w') : w'.Inv := by
  obtain ⟨-, hact, q, hq, rfl⟩ := finish_eq_some hstep
  have hsole := h.sole.execUpgraded hq
  unfold Kernel.execUpgraded at hq
  split at hq
  · rename_i reader dup hends
    obtain ⟨t, ht, hq⟩ := Option.bind_eq_some_iff.mp hq
    obtain ⟨t', -, rfl⟩ := Option.map_eq_some_iff.mp hq
    refine h.of_act hact hsole rfl ?_ ?_ fun _ => .inr ⟨rfl, reader, dup, hends⟩
    · simp [Call.setupDone, Child.alive]
    · simpa using h.parent
  · cases hq

/-- A set-up step fails, and the pipe is dropped. -/
theorem Inv.fail (h : w.Inv) {msg : String} {k : Call} {q : Kernel}
    (hk : w.call.stepFail msg = some k) (hq : w.kernel.dropEnds = some q) :
    Inv { w with call := k, kernel := q } := by
  obtain ⟨hsteady, htaken⟩ := Kernel.steady_dropEnds hq
  have hact : w.call.act w.shared (.fail msg) = some (w.shared, k) := by simp [Call.act, hk]
  unfold Call.stepFail at hk
  split at hk <;> cases hk
  exact h.of_act hact (h.sole.dropEnds hq) (hsteady.childEnd ▸ h.writer)
    (hsteady.child ▸ h.child) (hsteady.parent ▸ h.parent) fun _ => .inl htaken

/-- `wait_ready` reads, or it is done and has dropped the pipe. -/
theorem Inv.waitReady (h : w.Inv) (hstep : w.stepWaitReady = some w') : w'.Inv := by
  obtain ⟨k, hk, hshared, hcall, hkernel⟩ := h.stepWaitReady hstep
  have hact : w.call.act w.shared .waitReady = some (w.shared, k) := by simp [Call.act, hk]
  have hends := Call.sameEnds_stepWaitReady hk
  have hchild := (Call.workers_stepWaitReady hk).1
  obtain ⟨g, c, q⟩ := w'
  obtain rfl : g = w.shared := hshared
  obtain rfl : c = k := hcall
  rcases hkernel with heq | hdrop
  · obtain rfl : q = w.kernel := heq
    exact h.of_act hact h.sole (hends.writerOpen.trans h.writer) (hchild ▸ h.child) h.parent
      (hends.main ▸ h.fits)
  · obtain ⟨hsteady, htaken⟩ := Kernel.steady_dropEnds hdrop
    exact h.of_act hact (h.sole.dropEnds hdrop)
      (hends.writerOpen.trans (hsteady.childEnd ▸ h.writer))
      (hchild ▸ h.child.trans hsteady.child.symm) (hsteady.parent ▸ h.parent)
      fun _ => .inl htaken

/-- **One undisturbed step** keeps the invariant. -/
theorem Inv.step (h : w.Inv) (hund : w.undisturbed e = true) (hstep : w.step e = some w') :
    w'.Inv := by
  cases e with
  | tick ms =>
    cases hstep
    exact ⟨h.sole, h.coherent, h.started, h.owns, h.writer, h.child, h.parent, h.fits⟩
  | flag b =>
    simp only [World.step] at hstep
    split at hstep <;> cases hstep
    rename_i howns
    exact ⟨h.sole, h.coherent, h.started, fun ho => absurd ho howns, h.writer, h.child, h.parent,
      h.fits⟩
  | main =>
    simp only [World.step] at hstep
    split at hstep
    · rename_i helse
      obtain ⟨⟨g, k⟩, hmain, rfl⟩ := Option.map_eq_some_iff.mp hstep
      obtain ⟨hready, hchild, hfits, -⟩ := stepMain_elsewhere helse h.fits hmain
      exact h.of_act (a := .main) hmain h.sole (hready ▸ h.writer) (hchild ▸ h.child) h.parent hfits
    · cases hstep
  | pipe reader writer readEnd writeEnd =>
    obtain ⟨-, hact, q, hq, rfl⟩ := finish_eq_some hstep
    have hsteady := Kernel.steady_pipe hq
    exact h.of_act hact (h.sole.pipe hq) (hsteady.childEnd ▸ h.writer) (hsteady.child ▸ h.child)
      (hsteady.parent ▸ h.parent) (by simp [Fits, Call.setupDone, late])
  | clone =>
    obtain ⟨hmain, q, hq, rfl⟩ := during_eq_some hstep
    exact h.of_kernel (h.sole.clone hq) (Kernel.steady_clone hq) (by simp [Fits, hmain, late])
  | unset =>
    obtain ⟨hmain, q, hq, rfl⟩ := during_eq_some hstep
    exact h.of_kernel (h.sole.unset hq) (Kernel.steady_unset hq) (by simp [Fits, hmain, late])
  | dropWriter =>
    obtain ⟨-, hact, q, hq, rfl⟩ := finish_eq_some hstep
    have hsteady := Kernel.steady_dropWriter hq
    exact h.of_act hact (h.sole.dropWriter hq) (hsteady.childEnd ▸ h.writer)
      (hsteady.child ▸ h.child) (hsteady.parent ▸ h.parent) (by simp [Fits, Call.setupDone, late])
  | execUpgraded fds => exact h.execUpgraded hstep
  | takePipes =>
    obtain ⟨-, q, hq, rfl⟩ := during_eq_some hstep
    obtain ⟨hsteady, htaken⟩ := Kernel.steady_takePipes hq
    exact h.of_kernel (h.sole.takePipes hq) hsteady fun _ => .inl htaken
  | fail msg =>
    obtain ⟨-, hstep⟩ := Option.ite_none_right_eq_some.mp hstep
    obtain ⟨k, hk, hstep⟩ := Option.bind_eq_some_iff.mp hstep
    obtain ⟨q, hq, rfl⟩ := Option.map_eq_some_iff.mp hstep
    exact h.fail hk hq
  | waitChild =>
    obtain ⟨k, hk, rfl⟩ := Option.map_eq_some_iff.mp hstep
    have hact : w.call.act w.shared .waitChild = some (w.shared, k) := by simp [Call.act, hk]
    obtain ⟨halive, -, -, -, hready⟩ := Call.stepWaitChild_eq_some hk
    have hmain := (Call.sameEnds_stepWaitChild hk).main
    exact h.of_act hact h.sole (hready ▸ h.writer) (halive.trans h.child) h.parent
      (hmain ▸ h.fits)
  | waitReady => exact h.waitReady hstep
  | send err =>
    obtain ⟨k, hk, rfl⟩ := Option.map_eq_some_iff.mp hstep
    have hact : w.call.act w.shared (.send err) = some (w.shared, k) := by simp [Call.act, hk]
    unfold Call.stepSend at hk
    split at hk <;> cases hk
    exact h.of_act hact h.sole h.writer h.child h.parent h.fits
  | child a =>
    obtain ⟨k, hk, hstep⟩ := Option.bind_eq_some_iff.mp hstep
    obtain ⟨q, hq, rfl⟩ := Option.map_eq_some_iff.mp hstep
    have hact : w.call.act w.shared (.child a) = some (w.shared, k) := by simp [Call.act, hk]
    obtain ⟨hwriter, hchild, hparent, hends⟩ := h.childAct hk hq
    have hmain := Call.main_stepChild hk
    refine h.of_act hact (h.sole.childAct hq) hwriter hchild hparent ?_
    rw [hmain, hends]
    exact h.fits
  | spawn pid n fds =>
    obtain ⟨q, hq, rfl⟩ := Option.map_eq_some_iff.mp hstep
    obtain ⟨hsteady, hends⟩ := Kernel.steady_spawn hq
    exact h.of_kernel (h.sole.spawn hund hq) hsteady (hends ▸ h.fits)
  | exit n =>
    simp only [World.step] at hstep
    obtain ⟨q, hq, rfl⟩ := Option.map_eq_some_iff.mp hstep
    obtain ⟨hsteady, hends⟩ := Kernel.steady_exit hq
    exact h.of_kernel (h.sole.exit hq) hsteady (hends ▸ h.fits)
  | assign pid fd d =>
    obtain ⟨q, hq, rfl⟩ := Option.map_eq_some_iff.mp hstep
    obtain ⟨hsteady, hends⟩ := Kernel.steady_assign hq
    exact h.of_kernel (h.sole.assign hq) hsteady (hends ▸ h.fits)
  | close pid fd =>
    obtain ⟨q, hq, rfl⟩ := Option.map_eq_some_iff.mp hstep
    obtain ⟨hsteady, hends⟩ := Kernel.steady_close hq
    exact h.of_kernel (h.sole.close hq) hsteady (hends ▸ h.fits)

/-- The property holds after a step exactly when the step meets the condition. -/
theorem Inv.step_iff (h : w.Inv) (hstep : w.step e = some w') :
    (w'.kernel.Confined ↔ w.undisturbed e = true) ∧ (w.undisturbed e = true → w'.Inv) := by
  refine ⟨⟨fun hconfined => ?_, fun hund => (h.step hund hstep).sole.confined⟩,
    fun hund => h.step hund hstep⟩
  cases e with
  | spawn pid n fds =>
    obtain ⟨q, hq, rfl⟩ := Option.map_eq_some_iff.mp hstep
    by_contra hne
    exact h.sole.not_confined (by simpa [undisturbed] using hne) hq hconfined
  | _ => rfl

/-! ## When the child has died -/

/-- The child has been started, and has died without having written `OK`. -/
structure Doomed (w : World) : Prop where
  inv : w.Inv
  launched : late w.call.main = true
  gone : w.call.child.alive = false
  silent : ¬ okBytes <+: w.call.written

/-- A step of the threads of the call, or of time. -/
def own : Event → Bool
  | .tick _ | .main | .takePipes | .waitChild | .waitReady | .send _ => true
  | _ => false

/-- These steps keep the child dead and silent. -/
theorem Doomed.step (h : w.Doomed) (hown : own e = true) (hstep : w.step e = some w') :
    w'.Doomed := by
  have hinv : w'.Inv := h.inv.step (by cases e <;> first | rfl | cases hown) hstep
  cases e with
  | tick ms =>
    cases hstep
    exact ⟨hinv, h.launched, h.gone, h.silent⟩
  | main =>
    simp only [World.step] at hstep
    split at hstep
    · rename_i helse
      obtain ⟨⟨g, k⟩, hmain, rfl⟩ := Option.map_eq_some_iff.mp hstep
      obtain ⟨hready, hchild, -, hlate⟩ := stepMain_elsewhere helse h.inv.fits hmain
      have hwritten : k.written = w.call.written := by
        rcases Call.ends_stepMain h.inv.coherent hmain with ⟨hw, -⟩ | ⟨hunborn, hrunning, -⟩
        · exact hw
        · rw [hchild, hunborn] at hrunning
          cases hrunning
      exact ⟨hinv, hlate h.launched, hchild ▸ h.gone, hwritten ▸ h.silent⟩
    · cases hstep
  | takePipes =>
    obtain ⟨-, q, -, rfl⟩ := during_eq_some hstep
    exact ⟨hinv, h.launched, h.gone, h.silent⟩
  | waitChild =>
    obtain ⟨k, hk, rfl⟩ := Option.map_eq_some_iff.mp hstep
    have hends := Call.sameEnds_stepWaitChild hk
    exact ⟨hinv, hends.main ▸ h.launched, (Call.stepWaitChild_eq_some hk).1.trans h.gone,
      hends.written ▸ h.silent⟩
  | waitReady =>
    obtain ⟨k, hk, -, rfl, -⟩ := h.inv.stepWaitReady hstep
    have hends := Call.sameEnds_stepWaitReady hk
    exact ⟨hinv, hends.main ▸ h.launched, hends.not_alive h.gone, hends.written ▸ h.silent⟩
  | send err =>
    obtain ⟨k, hk, rfl⟩ := Option.map_eq_some_iff.mp hstep
    have hends := Call.sameEnds_stepSend hk
    exact ⟨hinv, hends.main ▸ h.launched, hends.not_alive h.gone, hends.written ▸ h.silent⟩
  | _ => cases hown

/-- Nobody has the write end open any more. -/
theorem Doomed.not_held (h : w.Doomed) {buf : List UInt8}
    (hread : w.call.waitReady = .reading buf) : w.kernel.held = false := by
  by_contra hheld
  obtain ⟨pid, fd, hold⟩ := Kernel.held_iff.mp (by simpa using hheld)
  rcases h.inv.sole.confined pid fd hold with rfl | ⟨rfl, hbefore⟩
  · obtain ⟨d, hd, -⟩ := hold
    obtain ⟨t, ht, -⟩ := Option.bind_eq_some_iff.mp hd
    have halive := h.inv.child
    rw [ht, h.gone] at halive
    cases halive
  · rw [(h.inv.held_eq hread).1] at hbefore
    cases hbefore

/-- What a step of `wait_ready` does when the pipe has ended and did not say `OK`: it meets the
end, or takes one of the bytes that are left. -/
theorem stepWaitReady_of_closed {k : Call} {buf : List UInt8} (hread : k.waitReady = .reading buf)
    (hclosed : k.ready.writerOpen = false) (hlog : delivered k.log = buf)
    (hsilent : ¬ okBytes <+: k.written) :
    ∃ k', k.stepWaitReady = some k' ∧ k'.main = k.main ∧ k'.waitChild = k.waitChild ∧
      k'.send = k.send ∧ (k'.waitReady = .done (.error .childExit) ∨
        (∃ buf', k'.waitReady = .reading buf') ∧
          k'.ready.buffer.length < k.ready.buffer.length) := by
  unfold Call.stepWaitReady
  simp only [hread]
  cases hbuf : k.ready.buffer with
  | nil =>
    simp only [hclosed]
    exact ⟨_, rfl, rfl, rfl, rfl, .inl rfl⟩
  | cons b rest =>
    refine ⟨_, rfl, rfl, rfl, rfl, ?_⟩
    dsimp only
    split
    · left
      have hne : buf ++ [b] ≠ okBytes := by
        rintro heq
        refine hsilent ⟨rest, ?_⟩
        rw [Call.written, hlog, hbuf, ← heq, List.append_assoc]
        rfl
      simp [readyVerdict, hne]
    · exact .inr ⟨⟨_, rfl⟩, by simp⟩

theorem Inv.exists_dropEnds (h : w.Inv) : ∃ q, w.kernel.dropEnds = some q := by
  obtain ⟨t, ht⟩ := Option.isSome_iff_exists.mp h.parent
  simp [Kernel.dropEnds, Kernel.update, ht]

/-- **`wait_ready` is not blocked**: it meets the end of the pipe, or takes one of the bytes
that are left. -/
theorem Doomed.read (h : w.Doomed) {buf : List UInt8} (hread : w.call.waitReady = .reading buf) :
    ∃ w', w.step .waitReady = some w' ∧ w'.call.main = w.call.main ∧
      w'.call.waitChild = w.call.waitChild ∧ w'.call.send = w.call.send ∧
      (w'.call.waitReady = .done (.error .childExit) ∨
        (∃ buf', w'.call.waitReady = .reading buf') ∧
          w'.call.ready.buffer.length < w.call.ready.buffer.length) := by
  have hclosed : w.call.ready.writerOpen = false :=
    (h.inv.held_eq hread).2.symm.trans (h.not_held hread)
  have hfacts := h.inv.coherent.read
  rw [hread] at hfacts
  obtain ⟨k, hk, hmain, hchild, hsend, hor⟩ :=
    stepWaitReady_of_closed hread hclosed hfacts.1 h.silent
  have hsame : { w.call with ready := { w.call.ready with writerOpen := w.kernel.held } }
      = w.call := by
    rw [(h.inv.held_eq hread).2]
  have hk' : { k with ready := { k.ready with writerOpen := w.call.ready.writerOpen } } = k := by
    rw [← (Call.sameEnds_stepWaitReady hk).writerOpen]
  obtain ⟨q, hq⟩ := h.inv.exists_dropEnds
  have hstep : ∃ q', w.step .waitReady = some { w with call := k, kernel := q' } := by
    simp only [World.step, World.stepWaitReady, hsame, hk, Option.bind_some, hk']
    split
    · exact ⟨q, by rw [hq]; rfl⟩
    · exact ⟨w.kernel, rfl⟩
  obtain ⟨q', hstep⟩ := hstep
  exact ⟨_, hstep, hmain, hchild, hsend, hor⟩

/-- What is left for `wait_child` to do, when the child is dead. -/
def watchRank : WaitChild → ℕ
  | .idle => 8
  | .entry => 7
  | .load _ => 6
  | .test _ => 5
  | .sleep _ _ => 4
  | .poll _ => 3
  | .kill => 2
  | .wait | .final => 1
  | .done _ => 0

/-- `wait_child` moves on, after some time. -/
theorem stepWaitChild_of_dead {k : Call} (hgone : k.child.alive = false)
    (hidle : k.waitChild ≠ .idle) (hdone : ∀ res, k.waitChild ≠ .done res) (g : Shared) :
    ∃ ms k', k.stepWaitChild { g with now := g.now + ms } = some k' ∧
      watchRank k'.waitChild < watchRank k.waitChild := by
  have hprocWait : ∀ wc, (k.procWait wc).waitChild = .done (.error .childExit) := fun wc => by
    simp [Call.procWait, hgone]
  cases hc : k.waitChild with
  | idle => exact absurd hc hidle
  | done res => exact absurd hc (hdone res)
  | entry =>
    refine ⟨0, ?_⟩
    simp [Call.stepWaitChild, hc, watchRank]
  | test begun =>
    refine ⟨0, ?_⟩
    by_cases hlt : g.now - begun < timeoutMs
    · simp [Call.stepWaitChild, hc, hlt, watchRank]
    · simp [Call.stepWaitChild, hc, hlt, watchRank]
  | sleep begun wake =>
    refine ⟨wake, ?_⟩
    simp [Call.stepWaitChild, hc, watchRank]
  | load begun =>
    refine ⟨0, ?_⟩
    by_cases hup : g.upgrading = true
    · simp [Call.stepWaitChild, hc, hup, watchRank]
    · simp [Call.stepWaitChild, hc, hup, watchRank]
  | poll begun | final =>
    refine ⟨0, ?_⟩
    simp [Call.stepWaitChild, hc, hprocWait, watchRank]
  | kill =>
    refine ⟨0, ?_⟩
    simp [Call.stepWaitChild, hc, watchRank]
  | wait =>
    refine ⟨0, ?_⟩
    simp [Call.stepWaitChild, hc, hgone, watchRank]

/-- What is left for the main thread to do. -/
def mainRank : Main → ℕ
  | .setup .sendThread => 10
  | .setup .waitChildThread => 7
  | .setup .waitReadyThread => 6
  | .joinReady => 5
  | .store _ => 4
  | .joinChild _ => 3
  | .joinSend _ => 2
  | _ => 0

/-- What is left for `wait_ready` to do. -/
def readRank (ready : ReadyPipe) : WaitReady → ℕ
  | .idle => ready.buffer.length + 2
  | .reading _ => ready.buffer.length + 1
  | .done _ => 0

/-- What is left for `send_fds` to do. -/
def sendRank : Send → ℕ
  | .idle => 2
  | .running => 1
  | .done _ => 0

/-- What is left to do until `upgrade` returns, when the child is dead. -/
def rank (w : World) : ℕ :=
  mainRank w.call.main + w.kernel.ends.beforeTake.toNat + watchRank w.call.waitChild
    + readRank w.call.ready w.call.waitReady + sendRank w.call.send

/-- The threads of the call take `w` to `w'`. -/
def Leads (w w' : World) : Prop :=
  ∃ es, (∀ e ∈ es, own e = true) ∧ ∀ w₀, (world w₀).run w es = some w'

theorem leads_of_step (hown : own e = true) (hstep : w.step e = some w') : w.Leads w' := by
  refine ⟨[e], by simpa using hown, fun w₀ => ?_⟩
  simp [TransitionSystem.run_cons, world, hstep]

theorem Leads.trans {w'' : World} (h : w.Leads w') (h' : w'.Leads w'') : w.Leads w'' := by
  obtain ⟨es, hown, hrun⟩ := h
  obtain ⟨es', hown', hrun'⟩ := h'
  refine ⟨es ++ es', ?_, ?_⟩
  · intro e he
    rcases List.mem_append.mp he with he | he
    · exact hown e he
    · exact hown' e he
  · intro w₀
    rw [TransitionSystem.run_append, hrun w₀]
    exact hrun' w₀

/-- `upgrade` is behind the start of the child. -/
theorem Inv.late_of_born (h : w.Inv) (hborn : w.call.child ≠ .unborn)
    (hinside : w.call.main.inside = true) : late w.call.main = true := by
  have hmain := h.coherent.main
  unfold Call.MainFacts at hmain
  cases hm : w.call.main with
  | setup p => cases p <;> simp_all [late]
  | _ => simp_all [late, Main.inside]

/-- Something is done, and nothing comes back. -/
theorem rank_lt (hmain : mainRank w'.call.main + sendRank w'.call.send
      < mainRank w.call.main + sendRank w.call.send)
    (hends : w'.kernel.ends = w.kernel.ends)
    (hwatch : watchRank w'.call.waitChild ≤ watchRank w.call.waitChild)
    (hread : readRank w'.call.ready w'.call.waitReady ≤ readRank w.call.ready w.call.waitReady) :
    rank w' < rank w := by
  unfold rank
  rw [hends]
  omega

/-- The main thread takes a step. -/
theorem Doomed.advance (h : w.Doomed) (helse : w.elsewhere = true) {g : Shared} {k : Call}
    (hmain : w.call.stepMain w.shared = some (g, k))
    (hlt : mainRank k.main + sendRank k.send < mainRank w.call.main + sendRank w.call.send)
    (hwatch : watchRank k.waitChild ≤ watchRank w.call.waitChild)
    (hread : readRank k.ready k.waitReady ≤ readRank w.call.ready w.call.waitReady) :
    ∃ w', w.Leads w' ∧ w'.Doomed ∧ rank w' < rank w := by
  have hstep : w.step .main = some { w with shared := g, call := k } := by
    simp [World.step, helse, hmain]
  exact ⟨_, leads_of_step rfl hstep, h.step rfl hstep, rank_lt hlt rfl hwatch hread⟩

/-- `take_pipes` comes first. -/
theorem Doomed.take (h : w.Doomed) (hm : w.call.main = .setup .sendThread) {reader dup : RawFd}
    (hends : w.kernel.ends = .passed reader dup) :
    ∃ w', w.Leads w' ∧ w'.Doomed ∧ rank w' < rank w := by
  obtain ⟨t, ht⟩ := Option.isSome_iff_exists.mp h.inv.parent
  have htake : ∃ q, w.kernel.takePipes = some q := by
    simp [Kernel.takePipes, hends, Kernel.update, ht]
  obtain ⟨q, hq⟩ := htake
  have hstep : w.step .takePipes = some { w with kernel := q } := by
    simp [World.step, during, hm, hq]
  refine ⟨_, leads_of_step rfl hstep, h.step rfl hstep, ?_⟩
  have hbefore : w.kernel.ends.beforeTake = true := by
    rw [hends]
    rfl
  unfold rank
  rw [(Kernel.steady_takePipes hq).2, hbefore]
  simp

/-- `wait_ready` takes a step. -/
theorem Doomed.read_progress (h : w.Doomed) {buf : List UInt8}
    (hread : w.call.waitReady = .reading buf) :
    ∃ w', w.Leads w' ∧ w'.Doomed ∧ rank w' < rank w := by
  obtain ⟨w', hstep, hmain, hchild, hsend, hor⟩ := h.read hread
  refine ⟨w', leads_of_step rfl hstep, h.step rfl hstep, ?_⟩
  have htaken := (h.inv.held_eq hread).1
  have htaken' : w'.kernel.ends.beforeTake = false := by
    obtain ⟨k, -, -, -, heq | hdrop⟩ := h.inv.stepWaitReady hstep
    · rw [heq, htaken]
    · exact (Kernel.steady_dropEnds hdrop).2
  have hlt : readRank w'.call.ready w'.call.waitReady < readRank w.call.ready w.call.waitReady := by
    rw [hread]
    rcases hor with hdone | ⟨⟨buf', hbuf'⟩, hlen⟩
    · rw [hdone]
      exact Nat.succ_pos _
    · rw [hbuf']
      exact Nat.succ_lt_succ hlen
  unfold rank
  rw [hmain, hchild, hsend, htaken, htaken']
  omega

/-- `wait_child` takes a step, after some time. -/
theorem Doomed.watch_progress (h : w.Doomed) (hidle : w.call.waitChild ≠ .idle)
    (hdone : ∀ res, w.call.waitChild ≠ .done res) :
    ∃ w', w.Leads w' ∧ w'.Doomed ∧ rank w' < rank w := by
  obtain ⟨ms, k, hk, hlt⟩ := stepWaitChild_of_dead h.gone hidle hdone w.shared
  obtain ⟨-, -, hsend, hready, hpipe⟩ := Call.stepWaitChild_eq_some hk
  have hmain := (Call.sameEnds_stepWaitChild hk).main
  obtain ⟨w₁, htick, hkernel, hstep⟩ : ∃ w₁, w.step (.tick ms) = some w₁ ∧
      w₁.kernel = w.kernel ∧ w₁.step .waitChild = some { w₁ with call := k } :=
    ⟨_, rfl, rfl, by simp [World.step, hk]⟩
  have h₁ := h.step rfl htick
  refine ⟨_, (leads_of_step rfl htick).trans (leads_of_step rfl hstep), h₁.step rfl hstep, ?_⟩
  unfold rank
  dsimp only
  rw [hmain, hsend, hready, hpipe, hkernel]
  omega

/-- The main thread starts the remaining threads. -/
theorem Doomed.setup_progress (h : w.Doomed) {p : Setup} (hm : w.call.main = .setup p) :
    ∃ w', w.Leads w' ∧ w'.Doomed ∧ rank w' < rank w := by
  have hlate := h.launched
  have hfacts := h.inv.coherent.main
  unfold Call.MainFacts at hfacts
  simp only [hm] at hfacts
  cases p with
  | sendThread =>
    rcases h.inv.fits hlate with htaken | ⟨-, reader, dup, hends⟩
    · refine h.advance (g := w.shared) (k := w.call.setupDone .sendThread) ?_
        (by simp [Call.stepMain, hm]) ?_ le_rfl le_rfl
      · simp only [elsewhere, hm]
        cases hends : w.kernel.ends with
        | passed reader dup =>
          rw [hends] at htaken
          cases htaken
        | _ => rfl
      · rw [hm]
        have hlt : 7 + 1 < 10 + sendRank w.call.send := by omega
        exact hlt
    · exact h.take hm hends
  | waitChildThread =>
    refine h.advance (g := w.shared) (k := w.call.setupDone .waitChildThread)
      (by simp [elsewhere, hm]) (by simp [Call.stepMain, hm]) ?_ ?_ le_rfl
    · rw [hm]
      exact Nat.add_lt_add_right (show 6 < 7 by decide) _
    · rw [hfacts.2.1 (by simp)]
      exact (show 7 ≤ 8 by decide)
  | waitReadyThread =>
    refine h.advance (g := w.shared) (k := w.call.setupDone .waitReadyThread)
      (by simp [elsewhere, hm]) (by simp [Call.stepMain, hm]) ?_ le_rfl ?_
    · rw [hm]
      exact Nat.add_lt_add_right (show 5 < 6 by decide) _
    · rw [hfacts.1]
      exact Nat.le_succ _
  | _ => simp [hm, late] at hlate

/-- **`upgrade` makes progress** when its child is dead, whatever its threads are at. -/
theorem Doomed.progress (h : w.Doomed) (hreturned : ∀ res, w.call.main ≠ .returned res) :
    ∃ w', w.Leads w' ∧ w'.Doomed ∧ rank w' < rank w := by
  have hlate := h.launched
  have hstarted := h.inv.started
  unfold Call.Started at hstarted
  cases hm : w.call.main with
  | setup p => exact h.setup_progress hm
  | joinReady =>
    simp only [hm] at hstarted
    cases hwr : w.call.waitReady with
    | idle => exact absurd hwr hstarted.2.2
    | reading buf => exact h.read_progress hwr
    | done res =>
      refine h.advance (g := w.shared) (k := { w.call with main := .store res })
        (by simp [elsewhere, hm]) (by simp [Call.stepMain, hm, hwr]) ?_ le_rfl (by simp [hwr])
      rw [hm]
      exact Nat.add_lt_add_right (show 4 < 5 by decide) _
  | store res =>
    refine h.advance (g := { w.shared with upgrading := false })
      (k := { w.call with main := .joinChild res }) (by simp [elsewhere, hm])
      (by simp [Call.stepMain, hm]) ?_ le_rfl le_rfl
    rw [hm]
    exact Nat.add_lt_add_right (show 3 < 4 by decide) _
  | joinChild res =>
    simp only [hm] at hstarted
    by_cases hdone : ∀ r, w.call.waitChild ≠ .done r
    · exact h.watch_progress hstarted.2.1 hdone
    · push Not at hdone
      obtain ⟨r, hr⟩ := hdone
      have hjoin : ∃ res', w.call.stepMain w.shared
          = some (w.shared, { w.call with main := .joinSend res' }) := by
        cases r with
        | ok u => exact ⟨res, by simp [Call.stepMain, hm, hr]⟩
        | error e => exact ⟨.error e, by simp [Call.stepMain, hm, hr]⟩
      obtain ⟨res', hjoin⟩ := hjoin
      refine h.advance (by simp [elsewhere, hm]) hjoin ?_ le_rfl le_rfl
      rw [hm]
      exact Nat.add_lt_add_right (show 2 < 3 by decide) _
  | joinSend res =>
    simp only [hm] at hstarted
    cases hs : w.call.send with
    | idle => exact absurd hs hstarted.1
    | running =>
      have hstep : w.step (.send none)
          = some { w with call := { w.call with send := .done (.ok ()) } } := by
        simp [World.step, Call.stepSend, hs]
      refine ⟨_, leads_of_step rfl hstep, h.step rfl hstep, rank_lt ?_ rfl le_rfl le_rfl⟩
      rw [hs]
      exact Nat.add_lt_add_left (show 0 < 1 by decide) _
    | done r =>
      refine h.advance (g := w.shared) (k := { w.call with main := .returned res })
        (by simp [elsewhere, hm]) (by simp [Call.stepMain, hm, hs]) ?_ le_rfl le_rfl
      rw [hm]
      exact Nat.add_lt_add_right (show 0 < 2 by decide) _
  | returned res => exact absurd hm (hreturned res)
  | _ => simp [hm, late] at hlate

theorem Leads.refl (w : World) : w.Leads w := ⟨[], by simp, fun _ => rfl⟩

/-- **`upgrade` can return** when its child is dead. -/
theorem Doomed.returns (h : w.Doomed) :
    ∃ w' res, w.Leads w' ∧ w'.Doomed ∧ w'.call.main = .returned res := by
  -- by induction on what is left to do
  induction hn : rank w using Nat.strong_induction_on generalizing w with
  | _ n ih =>
    by_cases hreturned : ∀ res, w.call.main ≠ .returned res
    · obtain ⟨w₁, hleads, h₁, hlt⟩ := h.progress hreturned
      obtain ⟨w', res, hleads', h', hmain⟩ := ih (rank w₁) (hn ▸ hlt) h₁ rfl
      exact ⟨w', res, hleads.trans hleads', h', hmain⟩
    · push Not at hreturned
      obtain ⟨res, hmain⟩ := hreturned
      exact ⟨w, res, .refl w, h, hmain⟩

/-- What it returns is an error. -/
theorem Doomed.error (h : w.Doomed) {res : UpgradeFinished}
    (hmain : w.call.main = .returned res) : ∃ err, res = .error err := by
  have hfacts := h.inv.coherent.main
  rw [Call.MainFacts, hmain] at hfacts
  obtain ⟨-, q, hready, ⟨-, rfl⟩ | ⟨err, -, rfl⟩⟩ := hfacts
  · have hread := h.inv.coherent.read
    rw [hready] at hread
    cases res with
    | error err => exact ⟨err, rfl⟩
    | ok u =>
      -- `OK` has been delivered, so it has been written
      have hdelivered : delivered w.call.log = okBytes := hread
      exact absurd ⟨w.call.ready.buffer, by rw [Call.written, hdelivered]⟩ h.silent
  · exact ⟨err, rfl⟩

/-- **`wait_ready` meets the end of the pipe**, after what is left in it. -/
theorem Doomed.wait_ready (h : w.Doomed) {buf : List UInt8}
    (hread : w.call.waitReady = .reading buf) (w₀ : World) :
    ∃ n w', (world w₀).run w (List.replicate n .waitReady) = some w' ∧
      w'.call.waitReady = .done (.error .childExit) := by
  -- by induction on the bytes in the pipe
  induction hn : w.call.ready.buffer.length using Nat.strong_induction_on generalizing w buf with
  | _ n ih =>
    obtain ⟨w₁, hstep, -, -, -, hdone | ⟨⟨buf', hbuf'⟩, hlen⟩⟩ := h.read hread
    · refine ⟨1, w₁, ?_, hdone⟩
      simp [TransitionSystem.run_cons, world, hstep]
    · obtain ⟨m, w', hrun, hdone⟩ := ih _ (hn ▸ hlen) (h.step rfl hstep) hbuf' rfl
      refine ⟨m + 1, w', ?_, hdone⟩
      rw [List.replicate_succ, TransitionSystem.run_cons]
      show (w.step .waitReady).bind _ = _
      rw [hstep]
      exact hrun

end World

/-- **Nobody else has the write end of the ready pipe open**, in a run of the parent, the
upgrade child and all processes that these start, exactly when all steps meet the condition:
the parent starts no other command between `unset_cloexec` and `take_pipes`, and the child
none before it has closed its end.  In such a run, when the child has died without having
written `OK`, `wait_ready` meets the end of the pipe, and `upgrade` can return, with an
error. -/
theorem ready_pipe_confined_iff {w₀ : World} (h0 : w₀.Start) (es : List Event) :
    ((world w₀).Along (fun _ _ w' => w'.kernel.Confined) w₀ es ↔
      (world w₀).Along (fun w e _ => w.undisturbed e = true) w₀ es) ∧
    ∀ w, (world w₀).Along (fun w e _ => w.undisturbed e = true) w₀ es →
      (world w₀).run w₀ es = some w → w.call.child ≠ .unborn →
      w.call.child.alive = false → ¬ okBytes <+: w.call.written →
      (∀ buf, w.call.waitReady = .reading buf →
        ∃ n w', (world w₀).run w (List.replicate n .waitReady) = some w' ∧
          w'.call.waitReady = .done (.error .childExit)) ∧
      (w.call.main.inside = true → ∃ es' w' err, (∀ e ∈ es', World.own e = true) ∧
        (world w₀).run w es' = some w' ∧ w'.call.main = .returned (.error err)) := by
  refine ⟨TransitionSystem.along_iff (I := World.Inv) (fun w e w' h hstep => h.step_iff hstep)
    h0.inv es, ?_⟩
  intro w hund hrun hborn hgone hsilent
  have hinv : w.Inv := hund.invariant (I := World.Inv)
    (fun w e w' h hstep hund => h.step hund hstep) h0.inv hrun
  refine ⟨fun buf hread => ?_, fun hinside => ?_⟩
  · have hlate : late w.call.main = true := by
      rw [hinv.coherent.main.joinReady_of_reading hread]
      rfl
    exact World.Doomed.wait_ready ⟨hinv, hlate, hgone, hsilent⟩ hread w₀
  · have hdoomed : w.Doomed := ⟨hinv, hinv.late_of_born hborn hinside, hgone, hsilent⟩
    obtain ⟨w', res, ⟨es', hown, hrun'⟩, h', hmain⟩ := hdoomed.returns
    obtain ⟨err, rfl⟩ := h'.error hmain
    exact ⟨es', w', err, hown, hrun' w₀, hmain⟩

/-! ## A command started at the wrong moment -/

/-- A process with its standard descriptors, alone. -/
def lonely : World where
  shared := ⟨false, 0⟩
  call := .init
  kernel := ⟨16, FiniteMap.empty.insert .parent
    ((FiniteMap.empty.insert 0 ⟨0, false⟩).insert 1 ⟨1, false⟩), .unmade, none, none⟩

theorem start_lonely : lonely.Start := by
  exact ⟨rfl, rfl, rfl, rfl, rfl, rfl⟩

/-- The parent sets up the ready pipe; `early` and `late` happen before and after the flag of
the duplicate is cleared. -/
def setUp (early late : List Event) : List Event :=
  [.main, .main, .main, .pipe 3 4 10 11, .clone] ++ early ++ [.unset] ++ late ++ [.dropWriter]

/-- The child is started and dies, and `wait_ready` starts to read. -/
def crash : List Event :=
  [.main, .execUpgraded [], .takePipes, .main, .main, .main, .child .exit]

/-- The parent starts another command between `unset_cloexec` and `take_pipes`.  The command
has the write end open, and when the upgrade child has died without a word, `wait_ready` waits
for the command. -/
theorem captured_write_end_blocks :
    ∃ w, lonely.Start ∧ (world lonely).run lonely
        (setUp [] [.spawn .parent 0 []] ++ crash) = some w ∧
      w.kernel.Holds (.other 0) 5 ∧ w.call.child = .dead ∧ w.call.written = [] ∧
      w.call.waitReady = .reading [] ∧ w.step .waitReady = none := by
  obtain ⟨w, hrun, hw⟩ := TransitionSystem.exists_run (world lonely) lonely
    (setUp [] [.spawn .parent 0 []] ++ crash)
    (fun w => decide ((w.kernel.desc (.other 0) 5).map Desc.file = some 11) &&
      decide (w.kernel.writeEnd = some 11) && decide (w.call.child = .dead) &&
      decide (w.call.written = []) && decide (w.call.waitReady = .reading []) &&
      (w.step .waitReady).isNone) (by decide +kernel)
  simp only [Bool.and_eq_true, decide_eq_true_eq, Option.isNone_iff_eq_none] at hw
  obtain ⟨⟨⟨⟨⟨hdesc, hend⟩, hchild⟩, hwritten⟩, hread⟩, hblocked⟩ := hw
  obtain ⟨d, hd, hfile⟩ := Option.map_eq_some_iff.mp hdesc
  exact ⟨w, start_lonely, hrun, ⟨d, hd, by rw [hend, hfile]⟩, hchild, hwritten, hread, hblocked⟩

/-- A command that is started before the flag is cleared does not get the write end, and
`upgrade` can return. -/
theorem ready_pipe_confined_early :
    (world lonely).Along (fun _ _ w' => w'.kernel.Confined) lonely
        (setUp [.spawn .parent 0 []] [] ++ crash) ∧
      ∃ w es w' err, (world lonely).run lonely (setUp [.spawn .parent 0 []] [] ++ crash) = some w ∧
        (world lonely).run w es = some w' ∧ w'.call.main = .returned (.error err) := by
  have hvia : ((world lonely).runVia World.undisturbed lonely
      (setUp [.spawn .parent 0 []] [] ++ crash)).isSome = true := by
    decide +kernel
  obtain ⟨s, hs⟩ := Option.isSome_iff_exists.mp hvia
  have hund := TransitionSystem.along_of_runVia hs
  obtain ⟨hiff, hdead⟩ := ready_pipe_confined_iff start_lonely
    (setUp [.spawn .parent 0 []] [] ++ crash)
  obtain ⟨w, hrun, hw⟩ := TransitionSystem.exists_run (world lonely) lonely
    (setUp [.spawn .parent 0 []] [] ++ crash)
    (fun w => decide (w.call.child = .dead) && decide (w.call.written = []) &&
      decide (w.call.main = .joinReady)) (by decide +kernel)
  simp only [Bool.and_eq_true, decide_eq_true_eq] at hw
  obtain ⟨⟨hchild, hwritten⟩, hmain⟩ := hw
  obtain ⟨-, hreturn⟩ := hdead w hund hrun (by simp [hchild]) (by simp [hchild, Child.alive])
    (by simp [hwritten, okBytes])
  obtain ⟨es, w', err, -, hrun', hmain'⟩ := hreturn (by simp [hmain, Main.inside])
  exact ⟨hiff.mpr hund, w, es, w', err, hrun, hrun', hmain'⟩

end WriteEnd
