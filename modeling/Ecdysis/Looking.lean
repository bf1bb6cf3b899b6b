/-
# Looking at the triggers one after another

`poll_triggers` goes through the triggers in order and looks at one after another, while
signals and connections go on arriving.  `World.monitor` makes a poll one step.  `Looking`
makes each look one: `next` says where the poll has got to, and everything else can happen
between two looks.

`reachable_iff_looking` connects the two: what arrives at a trigger that the poll has
already looked at could as well have arrived after the poll, so both systems reach the same
states of the process.  What tells them apart is which arrivals a poll sees: a delivery that
several streams get is seen by those that the poll has still to look at.
-/
import Ecdysis.TriggerEvents

open Executioner Inbox

namespace Upgrader

/-- The process with its monitor between two looks: the poll under way has looked at the
triggers before `next`. -/
structure Looking where
  world : World
  next : ℕ

namespace Looking

/-- One turn of the loop of `poll_triggers`. -/
def look (s : Looking) : Looking :=
  match s.world.triggers[s.next]? with
  -- the loop is through, `Poll::Pending`: the next poll starts over
  | none => { s with next := 0 }
  | some (t, ec) =>
    match t.pollNext s.world.runState with
    | none => { s with next := s.next + 1 }
    | some (item, t') =>
      { world := { s.world with
          triggers := s.world.triggers.set s.next (t', ec)
          point := reaction item ec }
        next := 0 }

section

variable {s : Looking} {t t' : Trigger} {ec : ExitCondition} {item : Except String TriggerReason}

theorem look_end (hi : s.world.triggers[s.next]? = none) : s.look = ⟨s.world, 0⟩ := by
  simp only [look, hi]

theorem look_pending (hi : s.world.triggers[s.next]? = some (t, ec))
    (hpoll : t.pollNext s.world.runState = none) : s.look = ⟨s.world, s.next + 1⟩ := by
  simp only [look, hi, hpoll]

theorem look_ready (hi : s.world.triggers[s.next]? = some (t, ec))
    (hpoll : t.pollNext s.world.runState = some (item, t')) :
    s.look = ⟨{ s.world with
      triggers := s.world.triggers.set s.next (t', ec)
      point := reaction item ec }, 0⟩ := by
  simp only [look, hi, hpoll]

end

/-- One step: a look while the monitor polls, and otherwise a step of the process. -/
def step (s : Looking) : World.Event → Option Looking
  | .monitor io =>
    match s.world.point with
    | .polling => some s.look
    | _ => (s.world.monitor io).map fun w => ⟨w, 0⟩
  | e => (s.world.step e).map fun w => ⟨w, s.next⟩

end Looking

/-- All interleavings of the looks and the other steps of the monitor with the rest. -/
def looking (parent : Proc) (triggers : List (Trigger × ExitCondition))
    (notifier : Option (List Notice)) : TransitionSystem Looking World.Event where
  Init := fun s => (world parent triggers notifier).Init s.world ∧ s.next = 0
  step := Looking.step

/-! ## A poll without interruption -/

section

variable {run : Option ExitCondition} {ts : List (Trigger × ExitCondition)} {i : ℕ}
  {t t' : Trigger} {ec : ExitCondition} {item : Except String TriggerReason}

/-- A poll ends at the first trigger that is ready. -/
theorem pollTriggers_of_ready (hi : ts[i]? = some (t, ec))
    (hbefore : ∀ u ∈ ts.take i, u.1.pollNext run = none)
    (hpoll : t.pollNext run = some (item, t')) :
    pollTriggers run ts = some (item.map (·, ec), ts.set i (t', ec)) := by
  induction ts generalizing i with
  | nil => cases hi
  | cons u ts ih =>
    obtain ⟨u, ec'⟩ := u
    cases i with
    | zero =>
      cases hi
      cases item <;> simp [pollTriggers, hpoll, Except.map]
    | succ i =>
      rw [List.take_succ_cons, List.forall_mem_cons] at hbefore
      simp [pollTriggers, hbefore.1, ih hi hbefore.2]

end

namespace World

variable {w w' : World} {t t' : Trigger} {ec : ExitCondition} {i : ℕ}
  {item : Except String TriggerReason} {io : Option String}

/-- When the triggers before it are pending, the monitor takes what a trigger reports. -/
theorem monitor_of_ready (hpoint : w.point = .polling) (hi : w.triggers[i]? = some (t, ec))
    (hbefore : ∀ u ∈ w.triggers.take i, u.1.pollNext w.runState = none)
    (hpoll : t.pollNext w.runState = some (item, t')) (io : Option String) :
    w.monitor io =
      some { w with triggers := w.triggers.set i (t', ec), point := reaction item ec } := by
  simp only [monitor, hpoint, pollTriggers_of_ready hi hbefore hpoll]
  cases item <;> rfl

/-- A poll that completes does so with the first trigger that is ready. -/
theorem ready_of_monitor (hpoint : w.point = .polling) (hrun : w.runState = none)
    (h : w.monitor io = some w') :
    ∃ i t t' ec item, w.triggers[i]? = some (t, ec) ∧
      (∀ u ∈ w.triggers.take i, u.1.pollNext w.runState = none) ∧
      t.pollNext w.runState = some (item, t') := by
  have hsome : pollTriggers none w.triggers ≠ none := by
    intro hnone
    simp only [monitor, hpoint, hrun, hnone] at h
    cases h
  obtain ⟨⟨res, ts'⟩, hpoll⟩ := Option.ne_none_iff_exists'.mp hsome
  obtain ⟨i, t, t', ec, item, hi, ht, -, -, -, hserve⟩ := pollTriggers_eq_some hpoll
  obtain ⟨-, -, -, hbefore⟩ := serve_eq_some hserve
  rw [hrun]
  refine ⟨i, t, t', ec, item, hi, ?_, ht⟩
  intro u hu
  obtain ⟨j, hj, rfl⟩ := List.mem_iff_getElem.mp hu
  rw [List.length_take] at hj
  have hempty := hbefore j (by omega)
  rw [inboxes, List.getElem?_map, List.getElem?_eq_getElem (by omega)] at hempty
  rw [List.getElem_take]
  exact pollNext_eq_none.mpr (Option.some_injective _ hempty)

theorem enabled_set_triggers (w : World) (ts : List (Trigger × ExitCondition))
    (e : Family.Event) : { w with triggers := ts }.enabled e = w.enabled e := rfl

theorem kidsAfter_set_triggers (w : World) (ts : List (Trigger × ExitCondition))
    (e : Family.Event) : { w with triggers := ts }.kidsAfter e = w.kidsAfter e := rfl

/-- What happens beside the monitor and is no arrival does not depend on the triggers. -/
theorem step_set_triggers {e : Event} (he : ∀ io, e ≠ .monitor io) (ha : ∀ i a, e ≠ .arrive i a)
    (h : w.step e = some w') (ts : List (Trigger × ExitCondition)) :
    { w with triggers := ts }.step e = some { w' with triggers := ts } := by
  cases e with
  | monitor io => exact absurd rfl (he io)
  | arrive i a => exact absurd rfl (ha i a)
  | returns i =>
    cases h
    rfl
  | family e =>
    simp only [World.step, enabled_set_triggers, kidsAfter_set_triggers] at h ⊢
    split at h
    · rename_i hguard
      obtain ⟨F, hF, rfl⟩ := Option.map_eq_some_iff.mp h
      simp [hguard, hF]
    · cases h
  | kid n e | listen r =>
    simp only [World.step] at h ⊢
    split at h
    · rename_i hguard
      obtain ⟨_, hrest, rfl⟩ := Option.map_eq_some_iff.mp h
      rw [if_pos hguard, hrest]
      rfl
    · cases h
  | openFd fd d | closeFd fd =>
    simp only [World.step] at h ⊢
    split at h
    · rename_i hguard
      cases h
      rw [if_pos hguard]
    · cases h

end World

/-! ## Arrivals behind the poll -/

/-- The events are arrivals at triggers before `n`. -/
def Behind (n : ℕ) (es : List World.Event) : Prop :=
  ∀ e ∈ es, ∃ i a, e = .arrive i a ∧ i < n

section

variable {n m : ℕ} {es : List World.Event} {parent : Proc}
  {triggers : List (Trigger × ExitCondition)} {notifier : Option (List Notice)}

theorem Behind.mono (h : Behind n es) (hnm : n ≤ m) : Behind m es := by
  intro e he
  obtain ⟨i, a, heq, hi⟩ := h e he
  exact ⟨i, a, heq, by omega⟩

/-- What arrives behind does not depend on the triggers ahead. -/
theorem received_modify (h : Behind n es) {i : ℕ} (hi : n ≤ i)
    (f : Trigger × ExitCondition → Trigger × ExitCondition)
    (ts : List (Trigger × ExitCondition)) :
    (World.received es ts).modify i f = World.received es (ts.modify i f) := by
  induction es generalizing ts with
  | nil => rfl
  | cons e es ih =>
    obtain ⟨⟨j, a, rfl, hj⟩, hrest⟩ := List.forall_mem_cons.mp h
    have hne : j ≠ i := by omega
    exact (ih hrest _).trans (congrArg _ (List.modify_modify_ne _ f ts hne))

theorem received_set (h : Behind n es) {i : ℕ} (hi : n ≤ i) (t : Trigger × ExitCondition)
    (ts : List (Trigger × ExitCondition)) :
    (World.received es ts).set i t = World.received es (ts.set i t) := by
  rw [List.set_eq_modify, List.set_eq_modify]
  exact received_modify h hi _ ts

theorem getElem?_received (h : Behind n es) {i : ℕ} (hi : n ≤ i)
    (ts : List (Trigger × ExitCondition)) : (World.received es ts)[i]? = ts[i]? := by
  induction es generalizing ts with
  | nil => rfl
  | cons e es ih =>
    obtain ⟨⟨j, a, rfl, hj⟩, hrest⟩ := List.forall_mem_cons.mp h
    have hne : j ≠ i := by omega
    exact (ih hrest _).trans (List.getElem?_modify_ne _ ts hne)

/-- Arrivals can always happen. -/
theorem reachable_received (h : Behind n es) {w : World}
    (hr : (world parent triggers notifier).Reachable w) :
    (world parent triggers notifier).Reachable
      { w with triggers := World.received es w.triggers } := by
  induction es generalizing w with
  | nil => exact hr
  | cons e es ih =>
    obtain ⟨⟨i, a, rfl, -⟩, hrest⟩ := List.forall_mem_cons.mp h
    exact ih hrest (hr.step (e := .arrive i a) rfl)

end

namespace Looking

variable {s s' : Looking} {parent : Proc} {triggers : List (Trigger × ExitCondition)}
  {notifier : Option (List Notice)}

/-- The process without what has arrived behind the poll under way is one in which the
triggers looked at are pending, and can be reached with whole polls. -/
def Delayed (parent : Proc) (triggers : List (Trigger × ExitCondition))
    (notifier : Option (List Notice)) (s : Looking) : Prop :=
  ∃ ts es, (Upgrader.world parent triggers notifier).Reachable { s.world with triggers := ts } ∧
    Behind s.next es ∧ s.world.triggers = World.received es ts ∧
    ∀ t ∈ ts.take s.next, t.1.pollNext s.world.runState = none

/-- What has arrived behind the poll can arrive after it. -/
theorem Delayed.reachable (h : s.Delayed parent triggers notifier) :
    (Upgrader.world parent triggers notifier).Reachable s.world := by
  obtain ⟨ts, es, hr, hes, htriggers, -⟩ := h
  have hreceived := reachable_received hes hr
  rwa [← htriggers] at hreceived

/-- Before the first look nothing has arrived behind. -/
theorem delayed_zero {w : World} (hr : (Upgrader.world parent triggers notifier).Reachable w) :
    (⟨w, 0⟩ : Looking).Delayed parent triggers notifier :=
  ⟨w.triggers, [], hr, by simp [Behind], rfl, by simp⟩

/-- A look keeps it: at the end of the poll, what is behind arrives. -/
theorem Delayed.look (hpoint : s.world.point = .polling)
    (h : s.Delayed parent triggers notifier) : s.look.Delayed parent triggers notifier := by
  have hworld := h.reachable
  obtain ⟨ts, es, hr, hes, htriggers, hpending⟩ := h
  cases hi : s.world.triggers[s.next]? with
  | none =>
    rw [look_end hi]
    exact delayed_zero hworld
  | some t =>
    obtain ⟨t, ec⟩ := t
    have hts : ts[s.next]? = some (t, ec) := by
      rw [← getElem?_received hes le_rfl ts, ← htriggers]
      exact hi
    cases hpoll : t.pollNext s.world.runState with
    | none =>
      rw [look_pending hi hpoll]
      refine ⟨ts, es, hr, hes.mono (Nat.le_succ _), htriggers, ?_⟩
      intro u hu
      rw [List.take_add_one, hts] at hu
      rcases List.mem_append.mp hu with hmem | hmem
      · exact hpending u hmem
      · cases Option.mem_toList.mp hmem
        exact hpoll
    | some r =>
      obtain ⟨item, t'⟩ := r
      rw [look_ready hi hpoll]
      have hpolled : (Upgrader.world parent triggers notifier).Reachable
          { s.world with triggers := ts.set s.next (t', ec), point := reaction item ec } :=
        hr.step (e := .monitor none)
          (World.monitor_of_ready (w := { s.world with triggers := ts }) hpoint hts hpending
            hpoll none)
      refine delayed_zero ?_
      rw [htriggers, received_set hes le_rfl]
      exact reachable_received hes hpolled

/-- An arrival keeps it: behind the poll it is put off, ahead of it it is not. -/
theorem Delayed.arrive (h : s.Delayed parent triggers notifier) (i : ℕ) (a : Arrival) :
    Delayed parent triggers notifier ⟨{ s.world with
      triggers := s.world.triggers.modify i fun t => (t.1.receive a, t.2) }, s.next⟩ := by
  obtain ⟨ts, es, hr, hes, htriggers, hpending⟩ := h
  rcases Nat.lt_or_ge i s.next with hi | hi
  · refine ⟨ts, es ++ [.arrive i a], hr, ?_, ?_, hpending⟩
    · intro e he
      rcases List.mem_append.mp he with hmem | hmem
      · exact hes e hmem
      · exact ⟨i, a, List.mem_singleton.mp hmem, hi⟩
    · simp [World.received, htriggers]
  · refine ⟨_, es, hr.step (e := .arrive i a) rfl, hes, ?_, ?_⟩
    · rw [← received_modify hes hi, ← htriggers]
    · rw [List.take_modify, List.modify_eq_self (by simp [hi])]
      exact hpending

/-- What else happens beside the monitor keeps it. -/
theorem Delayed.beside {e : World.Event} {w : World} (h : s.Delayed parent triggers notifier)
    (he : ∀ io, e ≠ .monitor io) (ha : ∀ i a, e ≠ .arrive i a) (hs : s.world.step e = some w) :
    Delayed parent triggers notifier ⟨w, s.next⟩ := by
  obtain ⟨ts, es, hr, hes, htriggers, hpending⟩ := h
  have hsame : w.triggers = s.world.triggers := by
    rcases World.triggers_beside hs he with hsame | ⟨i, a, heq, -⟩
    · exact hsame
    · exact absurd heq (ha i a)
  refine ⟨ts, es, hr.step (World.step_set_triggers he ha hs ts), hes, hsame.trans htriggers, ?_⟩
  rw [(World.step_beside hs he).2.2.2.1]
  exact hpending

/-- **Step lemma**: every step keeps it. -/
theorem Delayed.step {e : World.Event} (h : s.Delayed parent triggers notifier)
    (hs : s.step e = some s') : s'.Delayed parent triggers notifier := by
  cases e with
  | monitor io =>
    simp only [Looking.step] at hs
    split at hs
    · rename_i hpoint
      cases hs
      exact h.look hpoint
    · obtain ⟨w, hw, rfl⟩ := Option.map_eq_some_iff.mp hs
      exact delayed_zero (h.reachable.step (e := .monitor io) hw)
  | arrive i a =>
    cases hs
    exact h.arrive i a
  | family _ | kid _ _ | listen _ | returns _ | openFd _ _ | closeFd _ =>
    simp only [Looking.step] at hs
    obtain ⟨w, hw, rfl⟩ := Option.map_eq_some_iff.mp hs
    exact h.beside (by simp) (by simp) hw

/-- **Looks add nothing to what the process can reach.** -/
theorem reachable_of_looking (hr : (looking parent triggers notifier).Reachable s) :
    (Upgrader.world parent triggers notifier).Reachable s.world := by
  have hdelayed : s.Delayed parent triggers notifier := by
    refine hr.invariant ?_ ?_
    · rintro ⟨w, n⟩ ⟨hw, rfl⟩
      exact delayed_zero (.init hw)
    · intro s e s' _ h hs
      exact h.step hs
  exact hdelayed.reachable

/-- A poll looks past the triggers that are pending. -/
theorem looks {w : World} {i : ℕ} (hpoint : w.point = .polling) (hi : i ≤ w.triggers.length)
    (hbefore : ∀ u ∈ w.triggers.take i, u.1.pollNext w.runState = none)
    (hr : (looking parent triggers notifier).Reachable ⟨w, 0⟩) :
    (looking parent triggers notifier).Reachable ⟨w, i⟩ := by
  induction i with
  | zero => exact hr
  | succ i ih =>
    have hlt : w.triggers[i]? = some w.triggers[i] := List.getElem?_eq_getElem (by omega)
    rw [List.take_add_one, hlt, List.forall_mem_append] at hbefore
    have hpending : w.triggers[i].1.pollNext w.runState = none :=
      hbefore.2 _ (Option.mem_toList.mpr rfl)
    have hlook := look_pending (s := ⟨w, i⟩) hlt hpending
    refine (ih (by omega) hbefore.1).step (e := .monitor none) ?_
    simp only [looking, step, hpoint, hlook]

/-- A poll without interruption is the poll of `World.monitor`, and the other steps are the
same. -/
theorem looking_of_reachable {w : World}
    (hr : (Upgrader.world parent triggers notifier).Reachable w) :
    (looking parent triggers notifier).Reachable ⟨w, 0⟩ := by
  induction hr with
  | init hw => exact .init ⟨hw, rfl⟩
  | @step w w' e hr _ hs ih =>
    by_cases he : ∃ io, e = .monitor io
    · obtain ⟨io, rfl⟩ := he
      by_cases hpoint : w.point = .polling
      · have hrun : w.runState = none :=
          (World.sound_of_reachable hr).course.runState (by rw [hpoint]; rfl)
        obtain ⟨i, t, t', ec, item, hi, hbefore, hpoll⟩ :=
          World.ready_of_monitor hpoint hrun hs
        have hmonitor := World.monitor_of_ready hpoint hi hbefore hpoll io
        have hlooked := looks hpoint (List.getElem?_eq_some_iff.mp hi).1.le hbefore ih
        have hlook := look_ready (s := ⟨w, i⟩) hi hpoll
        refine hlooked.step (e := .monitor io) ?_
        simp only [Upgrader.world, World.step, hmonitor, Option.some.injEq] at hs
        simp only [looking, step, hpoint, hlook, hs]
      · refine ih.step (e := .monitor io) ?_
        have hs : w.monitor io = some w' := hs
        simp only [looking, Looking.step, hs, Option.map_some]
    · refine ih.step (e := e) ?_
      have hs : w.step e = some w' := hs
      have hne : ∀ io, e ≠ .monitor io := fun io heq => he ⟨io, heq⟩
      cases e with
      | monitor io => exact absurd rfl (hne io)
      | _ => simp only [looking, Looking.step, hs, Option.map_some]

/-- **Polls in one step reach what polls look by look reach.** -/
theorem reachable_iff_looking {w : World} :
    (Upgrader.world parent triggers notifier).Reachable w ↔
      ∃ n, (looking parent triggers notifier).Reachable ⟨w, n⟩ :=
  ⟨fun hr => ⟨0, looking_of_reachable hr⟩, fun ⟨_, hr⟩ => reachable_of_looking hr⟩

end Looking

end Upgrader
