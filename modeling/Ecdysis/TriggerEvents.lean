/-
# What happens to the events of the triggers

A trigger is an inbox: a signal that has not been taken waits once, however often it was
delivered, and connections queue.  Polling the triggers in the order of their registration
is serving the row of these inboxes, and an arrival posts to one of them.  So the monitor
beside everything else, with a record of what arrived and what was taken, inherits the laws
of rows of inboxes for as long as it goes on: no event is lost, duplicated or reordered
within its trigger, through any number of failed attempts.
-/
import Ecdysis.Inbox
import Ecdysis.Chronicle
import Ecdysis.ZeroDowntime

open Executioner Inbox

namespace Upgrader

/-! ## Triggers as inboxes -/

/-- How the result of accepting on the socket `path` is reported. -/
def acceptedAt (path : PathBuf) : Except String ℕ → Except String TriggerReason
  | .ok stream => .ok (.unixStream path stream)
  | .error e => .error ("Unexpected error accepting connection on socket: " ++ e)

/-- What waits at a trigger, in the order in which it will be reported. -/
def Trigger.waiting : Trigger → List (Except String TriggerReason)
  | .signal kind true => [.ok (.signal kind)]
  | .signal _ false => []
  | .uds path queue => queue.map (acceptedAt path)

/-- What waits at the triggers. -/
def inboxes (ts : List (Trigger × ExitCondition)) : List (List (Except String TriggerReason)) :=
  ts.map fun t => t.1.waiting

/-- What an arrival at trigger `i` means: a signal is merged with one that waits. -/
def Trigger.mail (i : ℕ) : Trigger → Arrival → List (Mail (Except String TriggerReason))
  | .signal kind false, .signal => [.posted i (.ok (.signal kind))]
  | .signal _ true, .signal => [.merged i]
  | .uds path _, .connection res => [.posted i (acceptedAt path res)]
  | _, _ => []

/-- Where `monitor` goes with what polling the triggers returned. -/
def reaction (item : Except String TriggerReason) (ec : ExitCondition) : Point :=
  match item with
  | .ok r => World.dispatch r ec
  | .error e => .cleanUp (.failed ("Encountered error while polling triggers: " ++ e))

section

variable {t t' : Trigger} {ts ts' : List (Trigger × ExitCondition)} {i : ℕ}
  {item : Except String TriggerReason}

/-- While the process runs, a trigger is pending when nothing waits at it. -/
theorem pollNext_eq_none : t.pollNext none = none ↔ t.waiting = [] := by
  cases t with
  | signal kind pending => cases pending <;> simp [Trigger.pollNext, Trigger.waiting]
  | uds path queue =>
    cases queue with
    | nil => simp [Trigger.pollNext, Trigger.waiting, StopOnShutdown.shouldContinue]
    | cons res queue =>
      cases res <;> simp [Trigger.pollNext, Trigger.waiting, StopOnShutdown.shouldContinue]

/-- While the process runs, a trigger that is ready reports what waits first. -/
theorem waiting_of_pollNext (h : t.pollNext none = some (item, t')) :
    t.waiting = item :: t'.waiting := by
  cases t with
  | signal kind pending =>
    cases pending with
    | true =>
      cases h
      rfl
    | false => cases h
  | uds path queue =>
    simp only [Trigger.pollNext, StopOnShutdown.shouldContinue, if_true] at h
    split at h <;> cases h <;> rfl

/-- **Polling the triggers is serving their inboxes.** -/
theorem pollTriggers_eq_some {res : Except String (TriggerReason × ExitCondition)}
    (h : pollTriggers none ts = some (res, ts')) :
    ∃ i t t' ec item, ts[i]? = some (t, ec) ∧ t.pollNext none = some (item, t') ∧
      ts' = ts.set i (t', ec) ∧ res = item.map (·, ec) ∧
      (ts.findIdx fun t => (t.1.pollNext none).isSome) = i ∧
      serve (inboxes ts) = some (i, item, inboxes ts') := by
  induction ts generalizing ts' with
  | nil => cases h
  | cons t ts ih =>
    obtain ⟨t, ec⟩ := t
    simp only [pollTriggers] at h
    split at h
    · rename_i r t' hpoll
      cases h
      refine ⟨0, t, t', ec, .ok r, rfl, hpoll, rfl, rfl, by simp [List.findIdx_cons, hpoll], ?_⟩
      simp [inboxes, waiting_of_pollNext hpoll, serve]
    · rename_i e t' hpoll
      cases h
      refine ⟨0, t, t', ec, .error e, rfl, hpoll, rfl, rfl, by simp [List.findIdx_cons, hpoll], ?_⟩
      simp [inboxes, waiting_of_pollNext hpoll, serve]
    · rename_i hpoll
      obtain ⟨⟨res', ts''⟩, hrest, heq⟩ := Option.map_eq_some_iff.mp h
      cases heq
      obtain ⟨i, u, u', ec', item, hi, hu, rfl, hres, hfind, hserve⟩ := ih hrest
      refine ⟨i + 1, u, u', ec', item, hi, hu, rfl, hres, ?_, ?_⟩
      · simp [List.findIdx_cons, hpoll, hfind]
      · have hempty : t.waiting = [] := pollNext_eq_none.mp hpoll
        simp only [inboxes] at hserve
        simp [inboxes, hempty, serve, hserve]

/-- Polling finds nothing when nothing waits. -/
theorem pollTriggers_eq_none : pollTriggers none ts = none ↔ serve (inboxes ts) = none := by
  induction ts with
  | nil => simp [pollTriggers, inboxes, serve]
  | cons t ts ih =>
    obtain ⟨t, ec⟩ := t
    cases hpoll : t.pollNext none with
    | none =>
      have hempty : t.waiting = [] := pollNext_eq_none.mp hpoll
      simp only [inboxes] at ih
      simp [pollTriggers, hpoll, inboxes, hempty, serve, ih]
    | some r =>
      obtain ⟨item, t'⟩ := r
      have hwait := waiting_of_pollNext hpoll
      cases item <;> simp [pollTriggers, hpoll, inboxes, hwait, serve]

end

/-! ## The record of what arrives and what is taken -/

namespace World

variable {w w' : World} {parent : Proc} {triggers : List (Trigger × ExitCondition)}
  {notifier : Option (List Notice)}

/-- What a step does to the inboxes: an arrival at a trigger, or a poll that completes,
with the trigger it found ready and what it returned. -/
def letters (w : World) : Event → World → List (Mail (Except String TriggerReason))
  | .arrive i a, _ => ((w.triggers[i]?).map fun t => t.1.mail i a).getD []
  | .monitor _, _ =>
    match w.point, pollTriggers w.runState w.triggers with
    | .polling, some (res, _) =>
      [.served (w.triggers.findIdx fun t => (t.1.pollNext w.runState).isSome) (res.map Prod.fst)]
    | _, _ => []
  | _, _ => []

/-- A poll completes when something waits at a trigger. -/
theorem isSome_monitor_polling (hpoint : w.point = .polling) (hrun : w.runState = none)
    (io : Option String) :
    (w.monitor io).isSome = true ↔ serve (inboxes w.triggers) ≠ none := by
  rw [Ne, ← pollTriggers_eq_none]
  simp only [monitor, hpoint, hrun]
  split <;> simp_all

end World

/-- **The monitor with the record of its triggers**: all interleavings, with what arrived at
the triggers and what was taken from them. -/
def posts (parent : Proc) (triggers : List (Trigger × ExitCondition))
    (notifier : Option (List Notice)) :
    TransitionSystem (World × List (Mail (Except String TriggerReason))) World.Event :=
  (world parent triggers notifier).recording World.letters

section

variable {parent : Proc} {triggers : List (Trigger × ExitCondition)}
  {notifier : Option (List Notice)} {w w' : World}
  {log log' : List (Mail (Except String TriggerReason))} {es : List World.Event}

/-- Something waits somewhere when there is something to serve. -/
theorem serve_ne_none {ts : List (Trigger × ExitCondition)} :
    serve (inboxes ts) ≠ none ↔ ∃ i, waitingAt (inboxes ts) i ≠ [] := by
  rw [Ne, serve_eq_none]
  push Not
  constructor
  · rintro ⟨q, hq, hne⟩
    obtain ⟨i, hi⟩ := List.mem_iff_getElem?.mp hq
    exact ⟨i, by rwa [waitingAt_of_getElem? hi]⟩
  · rintro ⟨i, hne⟩
    cases hi : (inboxes ts)[i]? with
    | none =>
      rw [waitingAt, hi] at hne
      exact absurd rfl hne
    | some q =>
      rw [waitingAt_of_getElem? hi] at hne
      exact ⟨q, List.mem_of_getElem? hi, hne⟩

end

/-! ### A stop request during an upgrade that fails -/

/-- The attempt fails, and the monitor starts over. -/
def failedUpgrade : List World.Event := crash ++ [.monitor none]

end Upgrader
