/-
# What holds of every call of `upgrade` throughout every run

The invariant behind the results on single upgrades.  It has three layers:

* `Call.Coherent` : the threads of one call are in step with each other (which
  threads exist, what their results imply about the bytes read and the child);
* `Main.owns` : a call owns the flag from winning the swap until it stores
  `false`; the owner is unique and the flag is set while there is one;
* `wait_child` can see the flag cleared only after its own call has cleared it,
  because no other call can clear it in between (`waitChild_final`).

The interference-freedom rule of `Interleaving` puts them together
(`holds_of_reachable`).
-/
import Ecdysis.Executioner

namespace Executioner

/-! ## Ownership of the flag -/

/-- The call won the swap and has not stored `false`: it is setting up or waiting
for `wait_ready`, or it left through one of the exits that never clear the flag. -/
def Main.owns : Main → Bool
  | .setup _ | .joinReady | .store _ | .aborted _ _ | .panicked => true
  | _ => false

/-- The call has stored `false` and has not returned. -/
def Main.closing : Main → Bool
  | .joinChild _ | .joinSend _ => true
  | _ => false

/-- The call is between winning the swap and returning its result. -/
def Main.inside : Main → Bool
  | .setup _ | .joinReady | .store _ | .joinChild _ | .joinSend _ => true
  | _ => false

/-- The call has stored `false`. -/
def Main.stored : Main → Bool
  | .joinChild _ | .joinSend _ | .returned _ => true
  | _ => false

/-! ## The threads of one call -/

@[simp] theorem delivered_nil : delivered [] = [] := rfl

@[simp] theorem delivered_append (l m : List Record) :
    delivered (l ++ m) = delivered l ++ delivered m := by
  simp [delivered]

@[simp] theorem delivered_read (b : UInt8) : delivered [.read b] = [b] := rfl
@[simp] theorem delivered_tryWait (r : Bool) : delivered [.tryWait r] = [] := rfl
@[simp] theorem delivered_kill : delivered [.kill] = [] := rfl
@[simp] theorem delivered_wait : delivered [.wait] = [] := rfl

/-- What the position of the main thread says about the other threads. -/
def Call.MainFacts (k : Call) : Prop :=
  match k.main with
  | .start | .refused | .aborted _ _ =>
    k.waitChild = .idle ∧ k.waitReady = .idle ∧ k.child = .unborn
  | .setup p =>
    k.waitReady = .idle ∧ (p ≠ .waitReadyThread → k.waitChild = .idle)
      ∧ (k.child = .unborn ↔ p ∈ [.listenerPipe, .listenerDup, .readyPipe, .readyDup,
          .currentDir, .spawn])
  | .joinReady => k.child ≠ .unborn
  | .store res | .joinChild res => k.waitReady = .done res ∧ k.child ≠ .unborn
  | .joinSend res | .returned res =>
    k.child ≠ .unborn ∧ ∃ q, k.waitReady = .done q ∧
      ((k.waitChild = .done (.ok ()) ∧ res = q)
        ∨ ∃ e, k.waitChild = .done (.error e) ∧ res = .error e)
  | .panicked => k.waitReady = .idle ∧ k.child ≠ .unborn

/-- What the position of `wait_child` says about its log and the child. -/
def WatchFacts (log : List Record) (child : Child) : WaitChild → Prop
  | .done (.ok ()) => .kill ∉ log ∧ ∃ before, log = before ++ [.tryWait true]
  | .done (.error _) => child = .reaped
  | .wait => True
  | _ => .kill ∉ log

/-- What the position of `wait_ready` says about the bytes delivered. -/
def ReadFacts (log : List Record) (ready : ReadyPipe) : WaitReady → Prop
  | .idle => delivered log = []
  | .reading buf => delivered log = buf ∧ buf.length < 2
  | .done (.ok ()) => delivered log = okBytes
  | .done (.error _) =>
    ((delivered log).length = 2 ∧ delivered log ≠ okBytes)
      ∨ ((delivered log).length < 2 ∧ ready = ⟨[], false⟩)

/-- The threads of a call are in step with each other. -/
structure Call.Coherent (k : Call) : Prop where
  main : k.MainFacts
  cleared : k.waitChild = .final ∨ k.waitChild = .done (.ok ()) → k.main.stored = true
  watch : WatchFacts k.log k.child k.waitChild
  read : ReadFacts k.log k.ready k.waitReady

theorem Call.coherent_init : Call.init.Coherent :=
  ⟨⟨rfl, rfl, rfl⟩, by simp [Call.init], by simp [WatchFacts, Call.init], rfl⟩

variable {g g' : Shared} {k k' : Call}

/-- A step of the main thread keeps the threads in step. -/
theorem Call.Coherent.stepMain (hk : k.Coherent) (h : k.stepMain g = some (g', k')) :
    k'.Coherent := by
  obtain ⟨hm, hcl, hw, hr⟩ := hk
  obtain ⟨main, waitChild, waitReady, send, child, ready, log⟩ := k
  cases main with
  | start =>
    simp only [Call.stepMain] at h
    split at h <;> cases h <;>
      exact ⟨by simp_all [Call.MainFacts], by simp_all [Main.stored], hw, hr⟩
  | setup p =>
    simp only [Call.stepMain, Option.some.injEq, Prod.mk.injEq] at h
    obtain ⟨rfl, rfl⟩ := h
    cases p <;>
      exact ⟨by simp_all [Call.MainFacts, Call.setupDone],
        by simp_all [Main.stored, Call.setupDone],
        by simp_all [Call.MainFacts, Call.setupDone, WatchFacts],
        by simp_all [Call.MainFacts, Call.setupDone, ReadFacts]⟩
  | joinReady =>
    simp only [Call.stepMain] at h
    split at h <;> cases h
    exact ⟨by simp_all [Call.MainFacts], by simp_all [Main.stored], hw, hr⟩
  | store res =>
    cases h
    exact ⟨hm, fun _ => rfl, hw, hr⟩
  | joinChild res =>
    simp only [Call.stepMain] at h
    split at h <;> cases h <;> exact ⟨by simp_all [Call.MainFacts], fun _ => rfl, hw, hr⟩
  | joinSend res =>
    simp only [Call.stepMain] at h
    split at h <;> cases h
    exact ⟨hm, fun _ => rfl, hw, hr⟩
  | refused => cases h
  | aborted p msg => cases h
  | returned res => cases h
  | panicked => cases h

/-- A failing set-up step keeps the threads in step. -/
theorem Call.Coherent.stepFail {msg : String} (hk : k.Coherent)
    (h : k.stepFail msg = some k') : k'.Coherent := by
  obtain ⟨hm, hcl, hw, hr⟩ := hk
  obtain ⟨main, waitChild, waitReady, send, child, ready, log⟩ := k
  cases main with
  | setup p =>
    cases h
    cases p <;>
      exact ⟨by simp_all [Call.MainFacts, Setup.failed], by simp_all [Main.stored], hw, hr⟩
  | _ => cases h

/-- While `wait_child` runs, the position of the main thread says nothing about it,
so it may move on and collect the child. -/
theorem Call.MainFacts.watcher_moves (hm : k.MainFacts) (hidle : k.waitChild ≠ .idle)
    (hdone : ∀ q, k.waitChild ≠ .done q) (hmain : k'.main = k.main)
    (hready : k'.waitReady = k.waitReady) (hchild : k.child ≠ .unborn → k'.child ≠ .unborn) :
    k'.MainFacts := by
  unfold Call.MainFacts at hm ⊢
  rw [hmain, hready]
  cases hk : k.main with
  | setup p => cases p <;> simp_all
  | _ => simp_all

/-- The child of a call whose `wait_child` has started exists. -/
theorem Call.MainFacts.born (hm : k.MainFacts) (hidle : k.waitChild ≠ .idle) :
    k.child ≠ .unborn := by
  unfold Call.MainFacts at hm
  cases hk : k.main with
  | setup p => cases p <;> simp_all
  | _ => simp_all

/-- `wait_ready` looks at the log only through the bytes delivered. -/
theorem ReadFacts.log_congr {log log' : List Record} {ready : ReadyPipe} {w : WaitReady}
    (hr : ReadFacts log ready w) (hlog : delivered log' = delivered log) :
    ReadFacts log' ready w := by
  unfold ReadFacts at hr ⊢
  rw [hlog]
  exact hr

/-- A poll of the child keeps the threads in step, whichever of the two places it
is made at. -/
theorem Call.Coherent.procWait {w : WaitChild} (hk : k.Coherent)
    (hidle : k.waitChild ≠ .idle) (hdone : ∀ q, k.waitChild ≠ .done q)
    (hcl : w = .final ∨ w = .done (.ok ()) → k.main.stored = true)
    (hw : WatchFacts (k.log ++ [.tryWait true]) k.child w) :
    (k.procWait w).Coherent := by
  obtain ⟨hm, -, -, hr⟩ := hk
  unfold Call.procWait
  split
  · exact ⟨hm.watcher_moves hidle hdone rfl rfl id, hcl, hw, hr.log_congr (by simp)⟩
  · exact ⟨hm.watcher_moves hidle hdone rfl rfl fun _ => by simp, by simp, rfl,
      hr.log_congr (by simp)⟩

/-- A step of `wait_child` keeps the threads in step.  Its load of the flag is the
one place where the shared state matters: it sees `false` only after the call's own
main thread has stored it. -/
theorem Call.Coherent.stepWaitChild (hk : k.Coherent)
    (hflag : k.waitChild ≠ .idle → g.upgrading = false → k.main.stored = true)
    (h : k.stepWaitChild g = some k') : k'.Coherent := by
  have hm := hk.main
  have hw := hk.watch
  have hr := hk.read
  unfold Call.stepWaitChild at h
  cases hc : k.waitChild with
  | idle => simp [hc] at h
  | done res => simp [hc] at h
  | entry =>
    simp only [hc, Option.some.injEq] at h
    subst h
    rw [hc] at hw
    exact ⟨hm.watcher_moves (by simp [hc]) (by simp [hc]) rfl rfl id, by simp, hw, hr⟩
  | test begun =>
    simp only [hc] at h
    rw [hc] at hw
    split at h <;> cases h <;>
      exact ⟨hm.watcher_moves (by simp [hc]) (by simp [hc]) rfl rfl id, by simp, hw, hr⟩
  | sleep begun wake =>
    simp only [hc] at h
    rw [hc] at hw
    split at h <;> cases h
    exact ⟨hm.watcher_moves (by simp [hc]) (by simp [hc]) rfl rfl id, by simp, hw, hr⟩
  | poll begun =>
    simp only [hc, Option.some.injEq] at h
    subst h
    rw [hc] at hw
    refine hk.procWait (by simp [hc]) (by simp [hc]) (by simp) ?_
    simpa [WatchFacts] using hw
  | load begun =>
    simp only [hc] at h
    rw [hc] at hw
    split at h
    · cases h
      exact ⟨hm.watcher_moves (by simp [hc]) (by simp [hc]) rfl rfl id, by simp, hw, hr⟩
    · rename_i hup
      cases h
      -- the flag was seen cleared: by `hflag` this call itself has stored it
      refine ⟨hm.watcher_moves (by simp [hc]) (by simp [hc]) rfl rfl id, fun _ => ?_, hw, hr⟩
      exact hflag (by simp [hc]) (by simpa using hup)
  | final =>
    simp only [hc, Option.some.injEq] at h
    subst h
    rw [hc] at hw
    refine hk.procWait (by simp [hc]) (by simp [hc]) (fun _ => hk.cleared (.inl hc)) ?_
    simpa [WatchFacts] using hw
  | kill =>
    simp only [hc, Option.some.injEq] at h
    subst h
    refine ⟨hm.watcher_moves (by simp [hc]) (by simp [hc]) rfl rfl ?_, by simp, trivial,
      hr.log_congr (by simp)⟩
    intro hborn
    simp only
    split <;> simp_all
  | wait =>
    simp only [hc] at h
    split at h <;> cases h
    exact ⟨hm.watcher_moves (by simp [hc]) (by simp [hc]) rfl rfl fun _ => by simp, by simp, rfl,
      hr.log_congr (by simp)⟩

/-- While `wait_ready` is reading, the main thread is waiting for it. -/
theorem Call.MainFacts.joinReady_of_reading {buf : List UInt8} (hm : k.MainFacts)
    (hr : k.waitReady = .reading buf) : k.main = .joinReady := by
  unfold Call.MainFacts at hm
  cases hk : k.main <;> simp_all

/-- A byte read does not disturb a `wait_child` that has not finished. -/
theorem WatchFacts.read {log : List Record} {child : Child} {w : WaitChild} {b : UInt8}
    (hw : WatchFacts log child w) (hdone : w ≠ .done (.ok ())) :
    WatchFacts (log ++ [.read b]) child w := by
  cases w with
  | done res =>
    cases res with
    | ok u => exact absurd rfl hdone
    | error e => exact hw
  | wait => trivial
  | _ => simpa [WatchFacts] using hw

/-- The verdict on two bytes is recorded as `ReadFacts` says. -/
theorem readFacts_verdict {log : List Record} {ready : ReadyPipe} {buf : List UInt8}
    (hlog : delivered log = buf) (hlen : buf.length = 2) :
    ReadFacts log ready (.done (readyVerdict buf)) := by
  unfold readyVerdict
  split
  · rename_i hbuf
    exact hlog.trans hbuf
  · rename_i hbuf
    exact .inl ⟨by rw [hlog, hlen], by rw [hlog]; exact hbuf⟩

/-- A step of `wait_ready` keeps the threads in step. -/
theorem Call.Coherent.stepWaitReady (hk : k.Coherent) (h : k.stepWaitReady = some k') :
    k'.Coherent := by
  obtain ⟨hm, hcl, hw, hr⟩ := hk
  unfold Call.stepWaitReady at h
  cases hwr : k.waitReady with
  | idle => simp [hwr] at h
  | done res => simp [hwr] at h
  | reading buf =>
    have hmain := hm.joinReady_of_reading hwr
    have hborn : k.child ≠ .unborn := by simpa [Call.MainFacts, hmain] using hm
    have hnot : ¬ (k.waitChild = .final ∨ k.waitChild = .done (.ok ())) := by
      intro hcon
      simpa [hmain, Main.stored] using hcl hcon
    rw [hwr] at hr
    obtain ⟨hdel, hlen⟩ := hr
    simp only [hwr] at h
    split at h
    · rename_i b rest hbuf
      cases h
      refine ⟨by simpa [Call.MainFacts, hmain] using hborn, fun hcon => absurd hcon hnot,
        hw.read fun hdone => hnot (.inr hdone), ?_⟩
      have hdel' : delivered (k.log ++ [.read b]) = buf ++ [b] := by simp [hdel]
      simp only
      split
      · rename_i htwo
        exact readFacts_verdict hdel' htwo
      · rename_i htwo
        rw [List.length_append, List.length_singleton] at htwo
        exact ⟨hdel', by rw [List.length_append, List.length_singleton]; omega⟩
    · rename_i hbuf
      split at h <;> cases h
      rename_i hopen
      refine ⟨by simpa [Call.MainFacts, hmain] using hborn, fun hcon => absurd hcon hnot, hw,
        .inr ⟨hdel ▸ hlen, ?_⟩⟩
      cases hready : k.ready
      simp_all

/-- The end of `send_fds` keeps the threads in step. -/
theorem Call.Coherent.stepSend {err : Option String} (hk : k.Coherent)
    (h : k.stepSend err = some k') : k'.Coherent := by
  obtain ⟨hm, hcl, hw, hr⟩ := hk
  unfold Call.stepSend at h
  split at h <;> cases h
  exact ⟨hm, hcl, hw, hr⟩

/-- The position of the main thread only says whether the child exists. -/
theorem Call.MainFacts.child_moves (hm : k.MainFacts) (hmain : k'.main = k.main)
    (hchild : k'.waitChild = k.waitChild) (hready : k'.waitReady = k.waitReady)
    (hborn : k.child ≠ .unborn) (hborn' : k'.child ≠ .unborn) : k'.MainFacts := by
  unfold Call.MainFacts at hm ⊢
  rw [hmain, hchild, hready]
  cases hk : k.main <;> simp_all

/-- A live child has not been collected, so it may terminate. -/
theorem WatchFacts.child_moves {log : List Record} {child child' : Child} {w : WaitChild}
    (hw : WatchFacts log child w) (halive : child.alive = true) : WatchFacts log child' w := by
  cases w with
  | done res =>
    cases res with
    | ok u => exact hw
    | error e =>
      have hreaped : child = .reaped := hw
      simp [hreaped, Child.alive] at halive
  | _ => exact hw

/-- `wait_ready` relies on the pipe only once it has met its end. -/
theorem ReadFacts.pipe_moves {log : List Record} {ready ready' : ReadyPipe} {w : WaitReady}
    (hr : ReadFacts log ready w) (hend : ready = ⟨[], false⟩ → ready' = ⟨[], false⟩) :
    ReadFacts log ready' w := by
  cases w with
  | done res =>
    cases res with
    | ok u => exact hr
    | error e => exact hr.imp_right fun h => ⟨h.1, hend h.2⟩
  | _ => exact hr

theorem Child.alive.born {c : Child} (h : c.alive = true) : c ≠ .unborn := by
  rintro rfl
  cases h

/-- A step of the child keeps the threads in step. -/
theorem Call.Coherent.stepChild {a : ChildAct} (hk : k.Coherent)
    (h : k.stepChild a = some k') : k'.Coherent := by
  obtain ⟨hm, hcl, hw, hr⟩ := hk
  unfold Call.stepChild at h
  split at h
  · rename_i halive
    have hborn := Child.alive.born halive
    cases a with
    | write b =>
      simp only at h
      split at h <;> cases h
      rename_i hopen
      exact ⟨hm.child_moves rfl rfl rfl hborn hborn, hcl, hw,
        hr.pipe_moves fun hend => by simp [hend] at hopen⟩
    | close =>
      cases h
      exact ⟨hm.child_moves rfl rfl rfl hborn hborn, hcl, hw,
        hr.pipe_moves fun hend => by simp [hend]⟩
    | exit =>
      cases h
      exact ⟨hm.child_moves rfl rfl rfl hborn (by simp), hcl, hw.child_moves halive,
        hr.pipe_moves fun hend => by simp [hend]⟩
  · cases h

/-! ## One step of a call -/

/-- Which thread an action is a step of. -/
theorem Call.act_cases {a : Act} (h : k.act g a = some (g', k')) :
    (a = .main ∧ k.stepMain g = some (g', k')) ∨
      g' = g ∧ ((∃ msg, a = .fail msg ∧ k.stepFail msg = some k')
        ∨ (a = .waitChild ∧ k.stepWaitChild g = some k')
        ∨ (a = .waitReady ∧ k.stepWaitReady = some k')
        ∨ (∃ err, a = .send err ∧ k.stepSend err = some k')
        ∨ ∃ c, a = .child c ∧ k.stepChild c = some k') := by
  cases a with
  | main => exact .inl ⟨rfl, h⟩
  | _ =>
    obtain ⟨k'', hk'', heq⟩ := Option.map_eq_some_iff.mp h
    cases heq
    simp [hk'']

/-- **One step of a call keeps its threads in step**, provided the flag is set
while the call owns it. -/
theorem Call.Coherent.act {a : Act} (hk : k.Coherent)
    (hown : k.main.owns = true → g.upgrading = true) (h : k.act g a = some (g', k')) :
    k'.Coherent := by
  rcases Call.act_cases h with ⟨-, h⟩ | ⟨-, ⟨msg, -, h⟩ | ⟨-, h⟩ | ⟨-, h⟩ | ⟨err, -, h⟩ | ⟨c, -, h⟩⟩
  · exact hk.stepMain h
  · exact hk.stepFail h
  · refine hk.stepWaitChild (fun hstarted hclear => ?_) h
    -- `wait_child` exists and the call does not own the flag, so it has stored `false`
    have hm := hk.main
    unfold Call.MainFacts at hm
    cases hmain : k.main <;> simp_all [Main.owns, Main.stored]
  · exact hk.stepWaitReady h
  · exact hk.stepSend h
  · exact hk.stepChild h

/-- What the workers leave alone: the main thread, the bytes written to the ready
pipe, its write end, and a child that does not exist or has terminated. -/
structure Call.SameEnds (k k' : Call) : Prop where
  main : k'.main = k.main
  written : k'.written = k.written
  writerOpen : k'.ready.writerOpen = k.ready.writerOpen
  alive : k'.child.alive = true → k.child.alive = true
  born : k.child ≠ .unborn → k'.child ≠ .unborn

theorem Call.SameEnds.not_alive (h : k.SameEnds k') (hgone : k.child.alive = false) :
    k'.child.alive = false := by
  by_contra halive
  have hback := h.alive (by simpa using halive)
  rw [hgone] at hback
  cases hback

theorem Call.sameEnds_procWait (w : WaitChild) : k.SameEnds (k.procWait w) := by
  unfold Call.procWait
  split
  · exact ⟨rfl, by simp [Call.written], rfl, id, id⟩
  · exact ⟨rfl, by simp [Call.written], rfl, by simp [Child.alive], by simp⟩

theorem Call.sameEnds_stepWaitChild (h : k.stepWaitChild g = some k') : k.SameEnds k' := by
  unfold Call.stepWaitChild at h
  cases hc : k.waitChild with
  | poll begun | final =>
    simp only [hc, Option.some.injEq] at h
    exact h ▸ Call.sameEnds_procWait _
  | kill =>
    simp only [hc, Option.some.injEq] at h
    subst h
    by_cases hrun : k.child = .running
    · exact ⟨rfl, by simp [Call.written], rfl, by simp [hrun, Child.alive], by simp [hrun]⟩
    · exact ⟨rfl, by simp [Call.written], rfl, by simp [hrun], by simp [hrun]⟩
  | entry =>
    simp only [hc, Option.some.injEq] at h
    subst h
    exact ⟨rfl, rfl, rfl, id, id⟩
  | test begun | load begun | sleep begun wake =>
    simp only [hc] at h
    split at h <;> cases h <;> exact ⟨rfl, rfl, rfl, id, id⟩
  | wait =>
    simp only [hc] at h
    split at h <;> cases h
    exact ⟨rfl, by simp [Call.written], rfl, by simp [Child.alive], by simp⟩
  | idle | done res => simp [hc] at h

/-- A byte read moves from the pipe to the log. -/
theorem Call.sameEnds_stepWaitReady (h : k.stepWaitReady = some k') : k.SameEnds k' := by
  unfold Call.stepWaitReady at h
  split at h
  · split at h
    · rename_i b rest hbuf
      cases h
      exact ⟨rfl, by simp [Call.written, hbuf], rfl, id, id⟩
    · split at h <;> cases h
      exact ⟨rfl, rfl, rfl, id, id⟩
  all_goals cases h

theorem Call.sameEnds_stepSend {err : Option String} (h : k.stepSend err = some k') :
    k.SameEnds k' := by
  unfold Call.stepSend at h
  split at h <;> cases h
  exact ⟨rfl, rfl, rfl, id, id⟩

/-- What a step of the main thread does to the child and its pipe: nothing, unless it
spawns the child, with a fresh pipe. -/
theorem Call.ends_stepMain (hk : k.Coherent) (h : k.stepMain g = some (g', k')) :
    (k'.written = k.written ∧ k'.ready = k.ready ∧ k'.child = k.child)
      ∨ (k.child = .unborn ∧ k'.child = .running ∧ k'.written = []
        ∧ k'.ready.writerOpen = true) := by
  unfold Call.stepMain at h
  cases hm : k.main with
  | setup p =>
    simp only [hm, Option.some.injEq, Prod.mk.injEq] at h
    obtain ⟨-, rfl⟩ := h
    cases p with
    | spawn =>
      -- `wait_ready` has not started, so nothing has been delivered yet
      have hmain := hk.main
      unfold Call.MainFacts at hmain
      rw [hm] at hmain
      have hread := hk.read
      rw [hmain.1] at hread
      have hdel : delivered k.log = [] := hread
      exact .inr ⟨hmain.2.2.mpr (by decide), rfl, by simp [Call.setupDone, Call.written, hdel], rfl⟩
    | _ => exact .inl ⟨rfl, rfl, rfl⟩
  | start | joinReady | joinChild res | joinSend res =>
    simp only [hm] at h
    split at h <;> cases h <;> exact .inl ⟨rfl, rfl, rfl⟩
  | store res =>
    simp only [hm] at h
    cases h
    exact .inl ⟨rfl, rfl, rfl⟩
  | _ => simp [hm] at h

/-- What a step of a thread does to the child and its pipe. -/
theorem Call.ends_act {a : Act} (hk : k.Coherent) (ha : ∀ x, a ≠ .child x)
    (h : k.act g a = some (g', k')) :
    (k'.written = k.written ∧ k'.ready.writerOpen = k.ready.writerOpen
        ∧ (k'.child.alive = true → k.child.alive = true)
        ∧ (k.child ≠ .unborn → k'.child ≠ .unborn))
      ∨ (k.child = .unborn ∧ k'.child = .running ∧ k'.written = []
        ∧ k'.ready.writerOpen = true) := by
  have hsame : k.SameEnds k' → k'.written = k.written ∧
      k'.ready.writerOpen = k.ready.writerOpen ∧ (k'.child.alive = true → k.child.alive = true)
        ∧ (k.child ≠ .unborn → k'.child ≠ .unborn) :=
    fun h => ⟨h.written, h.writerOpen, h.alive, h.born⟩
  rcases Call.act_cases h with
    ⟨-, hs⟩ | ⟨-, ⟨msg, -, hs⟩ | ⟨-, hs⟩ | ⟨-, hs⟩ | ⟨err, -, hs⟩ | ⟨x, rfl, hs⟩⟩
  · rcases Call.ends_stepMain hk hs with ⟨hw, hr, hc⟩ | hspawn
    · exact .inl ⟨hw, by rw [hr], by rw [hc]; exact id, by rw [hc]; exact id⟩
    · exact .inr hspawn
  · unfold Call.stepFail at hs
    split at hs <;> cases hs
    exact .inl ⟨rfl, rfl, id, id⟩
  · exact .inl (hsame (Call.sameEnds_stepWaitChild hs))
  · exact .inl (hsame (Call.sameEnds_stepWaitReady hs))
  · exact .inl (hsame (Call.sameEnds_stepSend hs))
  · exact absurd rfl (ha x)

/-- The child does not move the main thread. -/
theorem Call.main_stepChild {a : ChildAct} (h : k.stepChild a = some k') : k'.main = k.main := by
  unfold Call.stepChild at h
  split at h
  · cases a with
    | write b =>
      simp only at h
      split at h <;> cases h
      rfl
    | close | exit =>
      cases h
      rfl
  · cases h

/-- Nor the threads that send the list and wait for the notification. -/
theorem Call.workers_stepChild {a : ChildAct} (h : k.stepChild a = some k') :
    k'.send = k.send ∧ k'.waitReady = k.waitReady := by
  unfold Call.stepChild at h
  split at h
  · cases a with
    | write b =>
      simp only at h
      split at h <;> cases h
      exact ⟨rfl, rfl⟩
    | close | exit =>
      cases h
      exact ⟨rfl, rfl⟩
  · cases h

/-- What a step of the child does. -/
theorem Call.stepChild_eq_some {a : ChildAct} (h : k.stepChild a = some k') :
    k.child.alive = true ∧ k'.child ≠ .unborn ∧
      ((∃ b, a = .write b ∧ k.ready.writerOpen = true ∧ k'.child = k.child ∧
          k'.written = k.written ++ [b] ∧ k'.ready.writerOpen = true) ∨
        (a = .close ∧ k'.child = k.child ∧ k'.written = k.written) ∨
        (a = .exit ∧ k'.child = .dead ∧ k'.written = k.written)) := by
  unfold Call.stepChild at h
  split at h
  · rename_i halive
    have hborn := Child.alive.born halive
    cases a with
    | write b =>
      simp only at h
      split at h <;> cases h
      rename_i hopen
      exact ⟨halive, hborn, .inl ⟨b, rfl, hopen, rfl, by simp [Call.written], hopen⟩⟩
    | close =>
      cases h
      exact ⟨halive, hborn, .inr (.inl ⟨rfl, rfl, rfl⟩)⟩
    | exit =>
      cases h
      exact ⟨halive, by simp, .inr (.inr ⟨rfl, rfl, rfl⟩)⟩
  · cases h

/-- What a step of `wait_child` leaves alone. -/
theorem Call.stepWaitChild_eq_some (h : k.stepWaitChild g = some k') :
    k'.child.alive = k.child.alive ∧ k'.waitChild ≠ .idle ∧ k'.send = k.send ∧
      k'.waitReady = k.waitReady ∧ k'.ready = k.ready := by
  have hprocWait : ∀ w, w ≠ .idle → (k.procWait w).child.alive = k.child.alive ∧
      (k.procWait w).waitChild ≠ .idle ∧ (k.procWait w).send = k.send ∧
      (k.procWait w).waitReady = k.waitReady ∧ (k.procWait w).ready = k.ready := by
    intro w hw
    unfold Call.procWait
    split
    · exact ⟨rfl, hw, rfl, rfl, rfl⟩
    · rename_i halive
      exact ⟨by simpa [Child.alive] using halive, by simp, rfl, rfl, rfl⟩
  unfold Call.stepWaitChild at h
  cases hc : k.waitChild with
  | poll begun | final =>
    simp only [hc, Option.some.injEq] at h
    subst h
    exact hprocWait _ (by simp)
  | kill =>
    simp only [hc, Option.some.injEq] at h
    subst h
    refine ⟨?_, by simp, rfl, rfl, rfl⟩
    by_cases hrun : k.child = .running
    · simp [hrun, Child.alive]
    · simp [hrun]
  | entry =>
    simp only [hc, Option.some.injEq] at h
    subst h
    exact ⟨rfl, by simp, rfl, rfl, rfl⟩
  | test begun | load begun | sleep begun wake =>
    simp only [hc] at h
    split at h <;> cases h <;> exact ⟨rfl, by simp, rfl, rfl, rfl⟩
  | wait =>
    simp only [hc] at h
    split at h <;> cases h
    rename_i halive
    exact ⟨by simpa [Child.alive] using halive, by simp, rfl, rfl, rfl⟩
  | idle | done res => simp [hc] at h

/-- What a step of `wait_ready` leaves alone, and where the thread is after it. -/
theorem Call.workers_stepWaitReady (h : k.stepWaitReady = some k') :
    k'.child = k.child ∧ k'.send = k.send ∧
      ((∃ buf, k'.waitReady = .reading buf) ∨ ∃ res, k'.waitReady = .done res) := by
  unfold Call.stepWaitReady at h
  split at h
  · split at h
    · cases h
      refine ⟨rfl, rfl, ?_⟩
      dsimp only
      split
      · exact .inr ⟨_, rfl⟩
      · exact .inl ⟨_, rfl⟩
    · split at h <;> cases h
      exact ⟨rfl, rfl, .inr ⟨_, rfl⟩⟩
  all_goals cases h

/-- The threads that the main thread relies on have been started. -/
def Call.Started (k : Call) : Prop :=
  match k.main with
  | .setup .waitChildThread => k.send ≠ .idle
  | .setup .waitReadyThread => k.send ≠ .idle ∧ k.waitChild ≠ .idle
  | .joinReady | .store _ | .joinChild _ | .joinSend _ =>
    k.send ≠ .idle ∧ k.waitChild ≠ .idle ∧ k.waitReady ≠ .idle
  | _ => True

/-- Threads that have been started do not become idle again. -/
theorem Call.Started.of_workers (hk : k.Started) (hmain : k'.main = k.main)
    (hsend : k.send ≠ .idle → k'.send ≠ .idle)
    (hchild : k.waitChild ≠ .idle → k'.waitChild ≠ .idle)
    (hready : k.waitReady ≠ .idle → k'.waitReady ≠ .idle) : k'.Started := by
  unfold Call.Started at hk ⊢
  rw [hmain]
  cases hm : k.main with
  | setup p => cases p <;> simp_all
  | _ => simp_all

theorem Call.Started.stepMain (hk : k.Started) (h : k.stepMain g = some (g', k')) :
    k'.Started := by
  unfold Call.stepMain at h
  unfold Call.Started at hk
  cases hm : k.main with
  | setup p =>
    simp only [hm, Option.some.injEq, Prod.mk.injEq] at h
    obtain ⟨-, rfl⟩ := h
    cases p <;> simp_all [Call.Started, Call.setupDone]
  | start | joinReady | joinChild res | joinSend res =>
    simp only [hm] at h hk
    split at h <;> cases h <;> simp_all [Call.Started]
  | store res =>
    simp only [hm] at h hk
    cases h
    simpa [Call.Started] using hk
  | _ => simp [hm] at h

/-- **One step of a call** starts threads in order. -/
theorem Call.Started.act {a : Act} (hk : k.Started) (h : k.act g a = some (g', k')) :
    k'.Started := by
  rcases Call.act_cases h with
    ⟨-, hs⟩ | ⟨-, ⟨msg, -, hs⟩ | ⟨-, hs⟩ | ⟨-, hs⟩ | ⟨err, -, hs⟩ | ⟨c, -, hs⟩⟩
  · exact hk.stepMain hs
  · unfold Call.stepFail at hs
    split at hs <;> cases hs
    rename_i p _
    cases p <;> trivial
  · obtain ⟨-, hchild, hsend, hready, -⟩ := Call.stepWaitChild_eq_some hs
    exact hk.of_workers (Call.sameEnds_stepWaitChild hs).main (hsend ▸ id) (fun _ => hchild)
      (hready ▸ id)
  · have hmain := (Call.sameEnds_stepWaitReady hs).main
    unfold Call.stepWaitReady at hs
    split at hs
    · split at hs
      · cases hs
        refine hk.of_workers hmain id id fun _ => ?_
        dsimp only
        split <;> simp
      · split at hs <;> cases hs
        exact hk.of_workers hmain id id (by simp)
    all_goals cases hs
  · have hmain := (Call.sameEnds_stepSend hs).main
    unfold Call.stepSend at hs
    split at hs <;> cases hs
    exact hk.of_workers hmain (by simp) id id
  · have hmain := Call.main_stepChild hs
    unfold Call.stepChild at hs
    split at hs
    · cases c with
      | write b =>
        simp only at hs
        split at hs <;> cases hs
        exact hk.of_workers hmain id id id
      | close | exit =>
        cases hs
        exact hk.of_workers hmain id id id
    · cases hs

/-- Only the main thread moves the main thread and the flag. -/
theorem Call.act_main_cases {a : Act} (h : k.act g a = some (g', k')) :
    (a = .main ∧ k.stepMain g = some (g', k'))
      ∨ (g' = g ∧ ∃ msg, a = .fail msg ∧ k.stepFail msg = some k')
      ∨ (g' = g ∧ k'.main = k.main) := by
  rcases Call.act_cases h with
    hs | ⟨hg, hs | ⟨-, hs⟩ | ⟨-, hs⟩ | ⟨err, -, hs⟩ | ⟨c, -, hs⟩⟩
  · exact .inl hs
  · exact .inr (.inl ⟨hg, hs⟩)
  · exact .inr (.inr ⟨hg, (Call.sameEnds_stepWaitChild hs).main⟩)
  · exact .inr (.inr ⟨hg, (Call.sameEnds_stepWaitReady hs).main⟩)
  · exact .inr (.inr ⟨hg, (Call.sameEnds_stepSend hs).main⟩)
  · exact .inr (.inr ⟨hg, Call.main_stepChild hs⟩)

/-- A failing set-up step leaves the call owning the flag. -/
theorem Call.main_stepFail {msg : String} (h : k.stepFail msg = some k') :
    k.main.owns = true ∧ k'.main.owns = true := by
  unfold Call.stepFail at h
  split at h <;> cases h
  rename_i p hp
  exact ⟨by rw [hp]; rfl, by cases p <;> rfl⟩

/-- A result stays what it is. -/
theorem Call.result_act {a : Act} {res : UpgradeFinished} (hres : k.main.result = some res)
    (h : k.act g a = some (g', k')) : k'.main.result = some res := by
  rcases Call.act_main_cases h with ⟨-, hs⟩ | ⟨-, msg, -, hs⟩ | ⟨-, hmain⟩
  · unfold Call.stepMain at hs
    cases hm : k.main <;> simp_all [Main.result]
  · unfold Call.stepFail at hs
    cases hm : k.main <;> simp_all [Main.result]
  · rw [hmain]
    exact hres

/-- **What a step does to the flag.**  It wins the flag, or gives it back, or leaves
the flag and its ownership alone. -/
theorem Call.act_flag {a : Act} (h : k.act g a = some (g', k')) :
    (k.main = .start ∧ g.upgrading = false ∧ k'.main = .setup .listenerPipe
        ∧ g' = { g with upgrading := true })
      ∨ (∃ res, k.main = .store res ∧ k'.main = .joinChild res
        ∧ g' = { g with upgrading := false })
      ∨ (g' = g ∧ k'.main.owns = k.main.owns) := by
  rcases Call.act_main_cases h with ⟨-, hs⟩ | ⟨hg, msg, -, hs⟩ | ⟨hg, hmain⟩
  · unfold Call.stepMain at hs
    cases hm : k.main with
    | start =>
      simp only [hm] at hs
      split at hs <;> cases hs
      · exact .inr (.inr ⟨rfl, rfl⟩)
      · rename_i hup
        exact .inl ⟨rfl, by simpa using hup, rfl, rfl⟩
    | setup p =>
      simp only [hm, Option.some.injEq, Prod.mk.injEq] at hs
      obtain ⟨rfl, rfl⟩ := hs
      cases p <;> exact .inr (.inr ⟨rfl, rfl⟩)
    | store res =>
      simp only [hm, Option.some.injEq, Prod.mk.injEq] at hs
      obtain ⟨rfl, rfl⟩ := hs
      exact .inr (.inl ⟨res, rfl, rfl, rfl⟩)
    | joinReady | joinChild res | joinSend res =>
      simp only [hm] at hs
      split at hs <;> cases hs <;> exact .inr (.inr ⟨rfl, rfl⟩)
    | _ => simp [hm] at hs
  · obtain ⟨hown, hown'⟩ := Call.main_stepFail hs
    exact .inr (.inr ⟨hg, by rw [hown, hown']⟩)
  · exact .inr (.inr ⟨hg, by rw [hmain]⟩)

/-! ## All calls -/

/-- What a step of the system is: a step of one call, or the passing of time. -/
theorem step_cases {s s' : Sys} {e : Event} (h : system.step s e = some s') :
    (∃ c a g' k', e = .act c a ∧ (s.comp c).act s.shared a = some (g', k')
        ∧ s' = ⟨g', Function.update s.comp c k'⟩)
      ∨ ∃ ms, e = .env ms ∧ s' = ⟨{ s.shared with now := s.shared.now + ms }, s.comp⟩ := by
  cases e with
  | act c a =>
    obtain ⟨g', k', hact, hs'⟩ := Interleaving.step_act_eq_some.mp h
    exact .inl ⟨c, a, g', k', rfl, hact, hs'⟩
  | env ms =>
    cases h
    exact .inr ⟨ms, rfl, rfl⟩

/-- A step of the child of call `c` moves that call alone. -/
theorem step_child {s s' : Sys} {c : ℕ} {a : ChildAct}
    (h : system.step s (.act c (.child a)) = some s') :
    ∃ k', (s.comp c).stepChild a = some k' ∧ s' = ⟨s.shared, Function.update s.comp c k'⟩ := by
  obtain ⟨g', k', hact, rfl⟩ := Interleaving.step_act_eq_some.mp h
  obtain ⟨k'', hk'', heq⟩ := Option.map_eq_some_iff.mp hact
  cases heq
  exact ⟨k', hk'', rfl⟩

/-- What holds of the flag and one call. -/
def CallInv (g : Shared) (k : Call) : Prop :=
  k.Coherent ∧ (k.main.owns = true → g.upgrading = true)

/-- What holds of two calls: they do not both own the flag. -/
def Exclusive (k l : Call) : Prop := ¬ (k.main.owns = true ∧ l.main.owns = true)

/-- **The invariant of the upgrade procedure**: in every state of every interleaving
of any number of calls, the threads of each call are in step, the flag is set while
a call owns it, and no two calls own it. -/
theorem holds_of_reachable {s : Sys} (hr : system.Reachable s) :
    Interleaving.Holds CallInv Exclusive s := by
  refine Interleaving.invariant (P := calls) (G := fun _ _ => True) ?_ ?_ ?_ ?_ ?_ ?_ hr
  · exact fun k l h hc => h ⟨hc.2, hc.1⟩
  · exact ⟨Call.coherent_init, by simp [Call.init, Main.owns]⟩
  · simp [Exclusive, Call.init, Main.owns]
  -- the call that acts: it owns the flag only if it has just won it or owned it before
  · intro s i a g k _ hI _ hact
    refine ⟨(hI.1 i).1.act (hI.1 i).2 hact, ?_⟩
    rcases Call.act_flag hact with ⟨-, -, -, rfl⟩ | ⟨res, -, hk, -⟩ | ⟨rfl, hk⟩
    · exact fun _ => rfl
    · simp [hk, Main.owns]
    · rw [hk]
      exact (hI.1 i).2
  -- the other calls: the flag is won only when it is clear, that is when nobody owns it,
  -- and cleared only by its owner
  · intro s i a g k j _ hI _ hact hj
    have hex := hI.2 i j hj.symm
    refine ⟨⟨(hI.1 j).1, ?_⟩, ?_⟩
    · rcases Call.act_flag hact with ⟨-, -, -, rfl⟩ | ⟨res, hi, -, -⟩ | ⟨rfl, -⟩
      · exact fun _ => rfl
      · exact fun hown => absurd ⟨by simp [hi, Main.owns], hown⟩ hex
      · exact (hI.1 j).2
    · rcases Call.act_flag hact with ⟨-, hclear, -, -⟩ | ⟨res, -, hk, -⟩ | ⟨-, hk⟩
      · rintro ⟨-, hown⟩
        simp [(hI.1 j).2 hown] at hclear
      · simp [Exclusive, hk, Main.owns]
      · rw [Exclusive, hk]
        exact hex
  · rintro g ms g' k hk henv
    cases henv
    exact hk

/-- The threads of every call are in step. -/
theorem coherent_of_reachable {s : Sys} (hr : system.Reachable s) (c : ℕ) :
    (s.comp c).Coherent :=
  ((holds_of_reachable hr).1 c).1

/-- The flag is set while a call owns it. -/
theorem upgrading_of_owns {s : Sys} (hr : system.Reachable s) {c : ℕ}
    (hc : (s.comp c).main.owns = true) : s.shared.upgrading = true :=
  ((holds_of_reachable hr).1 c).2 hc

/-- The flag has at most one owner. -/
theorem owner_unique {s : Sys} (hr : system.Reachable s) {c d : ℕ}
    (hc : (s.comp c).main.owns = true) (hd : (s.comp d).main.owns = true) : c = d := by
  by_contra hne
  exact (holds_of_reachable hr).2 c d hne ⟨hc, hd⟩

end Executioner
