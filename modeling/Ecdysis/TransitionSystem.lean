/-
# Transition systems given by a partial step function

General infrastructure: a labelled transition system is a set of initial states
and a partial step function on states and events.

* `ReachableVia G` : the states reached by steps that all meet a guard `G` on the
  state before the step and the event; `Reachable` is the unguarded case.
* `ReachableVia.invariant` : a property of the initial states that every guarded
  step keeps holds of every state reached.
* `run` : the executable counterpart, used to exhibit concrete executions; `run_tracks` is
  the invariant rule for a relation to a value that follows the events.
* `ReachableVia.map` : a projection that turns every step into a step of a second
  system, or into no change at all, carries reachability over.
* `Along P` : every step of an execution has the property `P`; `along_iff` compares two such
  properties step by step.
* `recording` : the same system with a record of what its steps did, which grows with
  every step and influences none.
-/
import Mathlib

/-- A labelled transition system: initial states and a partial step function. -/
structure TransitionSystem (σ ε : Type*) where
  Init : σ → Prop
  step : σ → ε → Option σ

namespace TransitionSystem

variable {σ ε τ δ : Type*} {M : TransitionSystem σ ε} {N : TransitionSystem τ δ}

/-! ## Reachability -/

/-- The states reached from an initial state by steps that all meet the guard. -/
inductive ReachableVia (M : TransitionSystem σ ε) (G : σ → ε → Prop) : σ → Prop
  | init {s : σ} : M.Init s → ReachableVia M G s
  | step {s s' : σ} {e : ε} :
      ReachableVia M G s → G s e → M.step s e = some s' → ReachableVia M G s'

/-- The states reached by any steps. -/
def Reachable (M : TransitionSystem σ ε) : σ → Prop := M.ReachableVia fun _ _ => True

/-- **The invariant rule.**  What holds initially and is kept by every guarded
step holds in every state reached. -/
theorem ReachableVia.invariant {G : σ → ε → Prop} {I : σ → Prop} {s : σ}
    (hr : M.ReachableVia G s) (h0 : ∀ s, M.Init s → I s)
    (hstep : ∀ s e s', M.ReachableVia G s → I s → G s e → M.step s e = some s' → I s') :
    I s := by
  induction hr with
  | init hs => exact h0 _ hs
  | step hr hg hs ih => exact hstep _ _ _ hr ih hg hs

/-- A weaker guard admits more runs. -/
theorem ReachableVia.mono {G G' : σ → ε → Prop} (hG : ∀ s e, G s e → G' s e) {s : σ}
    (hr : M.ReachableVia G s) : M.ReachableVia G' s := by
  induction hr with
  | init hs => exact .init hs
  | step _ hg hs ih => exact .step ih (hG _ _ hg) hs

/-- Guarded runs are runs. -/
theorem ReachableVia.reachable {G : σ → ε → Prop} {s : σ}
    (hr : M.ReachableVia G s) : M.Reachable s :=
  hr.mono fun _ _ _ => trivial

theorem Reachable.init {s : σ} (hs : M.Init s) : M.Reachable s := ReachableVia.init hs

theorem Reachable.step {s s' : σ} {e : ε} (hr : M.Reachable s)
    (hs : M.step s e = some s') : M.Reachable s' :=
  ReachableVia.step hr trivial hs

/-- The invariant rule for unguarded runs. -/
theorem Reachable.invariant {I : σ → Prop} {s : σ} (hr : M.Reachable s)
    (h0 : ∀ s, M.Init s → I s)
    (hstep : ∀ s e s', M.Reachable s → I s → M.step s e = some s' → I s') : I s :=
  ReachableVia.invariant hr h0 fun s e s' hs hi _ he => hstep s e s' hs hi he

/-- **Projection.**  If every guarded step of `M` is, under `f`, a guarded step of `N`
or no change at all, then `f` carries the states `M` reaches to states `N` reaches. -/
theorem ReachableVia.map {G : σ → ε → Prop} {H : τ → δ → Prop} (f : σ → τ)
    (h0 : ∀ s, M.Init s → N.Init (f s))
    (hstep : ∀ s e s', M.ReachableVia G s → G s e → M.step s e = some s' →
      f s' = f s ∨ ∃ d, H (f s) d ∧ N.step (f s) d = some (f s'))
    {s : σ} (hr : M.ReachableVia G s) : N.ReachableVia H (f s) := by
  induction hr with
  | init hs => exact .init (h0 _ hs)
  | step hr hg hs ih =>
    rcases hstep _ _ _ hr hg hs with heq | ⟨d, hd, hds⟩
    · rw [heq]
      exact ih
    · exact .step ih hd hds

/-! ## Executions -/

/-- Run a list of events in order. -/
def run (M : TransitionSystem σ ε) : σ → List ε → Option σ
  | s, [] => some s
  | s, e :: es => (M.step s e).bind fun s' => M.run s' es

@[simp] theorem run_nil (s : σ) : M.run s [] = some s := rfl

theorem run_cons (s : σ) (e : ε) (es : List ε) :
    M.run s (e :: es) = (M.step s e).bind fun s' => M.run s' es := rfl

/-- One step. -/
theorem run_singleton (s : σ) (e : ε) : M.run s [e] = M.step s e := by
  simp only [run_cons, run_nil, Option.bind_fun_some]

/-- Executions can be put together. -/
theorem run_append (s : σ) (es es' : List ε) :
    M.run s (es ++ es') = (M.run s es).bind fun s' => M.run s' es' := by
  induction es generalizing s with
  | nil => rfl
  | cons e es ih =>
    rw [List.cons_append, run_cons, run_cons, Option.bind_assoc]
    congr 1
    funext s'
    exact ih s'

/-- The state an execution ends in is reachable when the one it starts in is, if its
events meet the guard in any state. -/
theorem reachableVia_of_run {G : σ → ε → Prop} {s s' : σ} {es : List ε}
    (hr : M.ReachableVia G s) (hG : ∀ e ∈ es, ∀ t, G t e) (hrun : M.run s es = some s') :
    M.ReachableVia G s' := by
  induction es generalizing s with
  | nil =>
    rw [run_nil, Option.some.injEq] at hrun
    exact hrun ▸ hr
  | cons e es ih =>
    rw [run_cons, Option.bind_eq_some_iff] at hrun
    obtain ⟨t, ht, hrest⟩ := hrun
    exact ih (.step hr (hG e List.mem_cons_self s) ht)
      (fun e' he' => hG e' (List.mem_cons_of_mem _ he')) hrest

/-- The state an execution ends in is reachable when the one it starts in is. -/
theorem reachable_of_run {s s' : σ} {es : List ε} (hr : M.Reachable s)
    (hrun : M.run s es = some s') : M.Reachable s' :=
  reachableVia_of_run hr (fun _ _ _ => trivial) hrun

/-- Run a list of events in order, checking a guard before each. -/
def runVia (M : TransitionSystem σ ε) (g : σ → ε → Bool) : σ → List ε → Option σ
  | s, [] => some s
  | s, e :: es => if g s e then (M.step s e).bind fun s' => M.runVia g s' es else none

/-- A checked execution stays within the guarded runs. -/
theorem reachableVia_of_runVia {g : σ → ε → Bool} {s s' : σ} {es : List ε}
    (hr : M.ReachableVia (fun s e => g s e = true) s) (hrun : M.runVia g s es = some s') :
    M.ReachableVia (fun s e => g s e = true) s' := by
  induction es generalizing s with
  | nil =>
    cases hrun
    exact hr
  | cons e es ih =>
    unfold runVia at hrun
    split at hrun
    · rename_i hg
      obtain ⟨t, ht, hrest⟩ := Option.bind_eq_some_iff.mp hrun
      exact ih (.step hr hg ht) hrest
    · cases hrun

/-- A decidable property of the state an execution ends in, found by evaluation. -/
theorem exists_run (M : TransitionSystem σ ε) (s : σ) (es : List ε) (p : σ → Bool)
    (h : (M.run s es).map p = some true) : ∃ s', M.run s es = some s' ∧ p s' = true :=
  Option.map_eq_some_iff.mp h

/-- What the steps of an execution keep, whatever the state, the execution keeps. -/
theorem run_preserves {P : σ → Prop} {es : List ε}
    (hstep : ∀ e ∈ es, ∀ s s', P s → M.step s e = some s' → P s')
    {s s' : σ} (hs : P s) (hrun : M.run s es = some s') : P s' := by
  induction es generalizing s with
  | nil =>
    rw [run_nil, Option.some.injEq] at hrun
    exact hrun ▸ hs
  | cons e es ih =>
    rw [run_cons, Option.bind_eq_some_iff] at hrun
    obtain ⟨t, ht, hrest⟩ := hrun
    exact ih (fun e' he' => hstep e' (List.mem_cons_of_mem _ he'))
      (hstep e List.mem_cons_self _ _ hs ht) hrest

/-- **Tracking.**  A second value follows the events of an execution; a relation between
state and value that every step keeps holds at the end. -/
theorem run_tracks {P : σ → τ → Prop} {f : τ → ε → τ}
    (hstep : ∀ s t e s', P s t → M.step s e = some s' → P s' (f t e))
    {s s' : σ} {t : τ} {es : List ε} (hs : P s t) (hrun : M.run s es = some s') :
    P s' (es.foldl f t) := by
  induction es generalizing s t with
  | nil =>
    cases hrun
    exact hs
  | cons e es ih =>
    rw [run_cons, Option.bind_eq_some_iff] at hrun
    obtain ⟨s₁, hs₁, hrest⟩ := hrun
    exact ih (hstep s t e s₁ hs hs₁) hrest

/-- Every step of the execution of a list of events has the property `P`. -/
def Along (M : TransitionSystem σ ε) (P : σ → ε → σ → Prop) : σ → List ε → Prop
  | _, [] => True
  | s, e :: es => ∀ s', M.step s e = some s' → P s e s' ∧ M.Along P s' es

/-- **Two properties of executions agree** when they agree on the steps from states that
meet an invariant, which steps with the second property keep. -/
theorem along_iff {P Q : σ → ε → σ → Prop} {I : σ → Prop}
    (hstep : ∀ s e s', I s → M.step s e = some s' →
      (P s e s' ↔ Q s e s') ∧ (Q s e s' → I s'))
    {s : σ} (hs : I s) (es : List ε) : M.Along P s es ↔ M.Along Q s es := by
  induction es generalizing s with
  | nil => exact Iff.rfl
  | cons e es ih =>
    constructor
    · intro h s' hs'
      obtain ⟨hP, hrest⟩ := h s' hs'
      obtain ⟨hiff, hkeep⟩ := hstep s e s' hs hs'
      have hQ := hiff.mp hP
      exact ⟨hQ, (ih (hkeep hQ)).mp hrest⟩
    · intro h s' hs'
      obtain ⟨hQ, hrest⟩ := h s' hs'
      obtain ⟨hiff, hkeep⟩ := hstep s e s' hs hs'
      exact ⟨hiff.mpr hQ, (ih (hkeep hQ)).mpr hrest⟩

/-- An execution whose steps all have the property `Q` keeps an invariant that steps with
this property keep. -/
theorem Along.invariant {Q : σ → ε → σ → Prop} {I : σ → Prop}
    (hstep : ∀ s e s', I s → M.step s e = some s' → Q s e s' → I s')
    {s s' : σ} {es : List ε} (h : M.Along Q s es) (hs : I s) (hrun : M.run s es = some s') :
    I s' := by
  induction es generalizing s with
  | nil =>
    cases hrun
    exact hs
  | cons e es ih =>
    rw [run_cons, Option.bind_eq_some_iff] at hrun
    obtain ⟨t, ht, hrest⟩ := hrun
    obtain ⟨hQ, hQs⟩ := h t ht
    exact ih hQs (hstep s e t hs ht hQ) hrest

/-- A checked execution meets its guard all along. -/
theorem along_of_runVia {g : σ → ε → Bool} {s s' : σ} {es : List ε}
    (hrun : M.runVia g s es = some s') : M.Along (fun s e _ => g s e = true) s es := by
  induction es generalizing s with
  | nil => trivial
  | cons e es ih =>
    unfold runVia at hrun
    split at hrun
    · rename_i hg
      obtain ⟨t, ht, hrest⟩ := Option.bind_eq_some_iff.mp hrun
      intro s₁ hs₁
      rw [ht] at hs₁
      cases hs₁
      exact ⟨hg, ih hrest⟩
    · cases hrun

/-! ## Recording -/

variable {α : Type*} {out : σ → ε → σ → List α}

/-- The system with a record: every step appends what `out` says about it. -/
def recording (M : TransitionSystem σ ε) (out : σ → ε → σ → List α) :
    TransitionSystem (σ × List α) ε where
  Init := fun r => M.Init r.1 ∧ r.2 = []
  step := fun r e => (M.step r.1 e).map fun s' => (s', r.2 ++ out r.1 e s')

/-- A recorded step is a step, and what it appends. -/
theorem recording_step_eq_some {s s' : σ} {log log' : List α} {e : ε} :
    (M.recording out).step (s, log) e = some (s', log') ↔
      M.step s e = some s' ∧ log' = log ++ out s e s' := by
  constructor
  · intro h
    obtain ⟨t, ht, heq⟩ := Option.map_eq_some_iff.mp h
    cases heq
    exact ⟨ht, rfl⟩
  · rintro ⟨hs, rfl⟩
    simp [recording, hs]

/-- Without its record, the system does what it did. -/
theorem ReachableVia.of_recording {G : σ × List α → ε → Prop} {r : σ × List α}
    (hr : (M.recording out).ReachableVia G r) : M.Reachable r.1 := by
  induction hr with
  | init hs => exact .init hs.1
  | @step r r' e _ _ hs ih => exact ih.step (recording_step_eq_some.mp hs).1

/-- **The invariant rule for records.**  A relation between state and record that holds
of the initial states with the empty record and that every guarded step keeps. -/
theorem ReachableVia.recorded {G : σ × List α → ε → Prop} {I : σ → List α → Prop}
    {r : σ × List α} (hr : (M.recording out).ReachableVia G r) (h0 : ∀ s, M.Init s → I s [])
    (hstep : ∀ s log e s', (M.recording out).ReachableVia G (s, log) → I s log → G (s, log) e →
      M.step s e = some s' → I s' (log ++ out s e s')) : I r.1 r.2 := by
  refine hr.invariant (I := fun r => I r.1 r.2) ?_ ?_
  · rintro ⟨s, log⟩ ⟨hs, rfl⟩
    exact h0 s hs
  · rintro ⟨s, log⟩ e ⟨s', log'⟩ hr hI hg h
    obtain ⟨hs, rfl⟩ := recording_step_eq_some.mp h
    exact hstep s log e s' hr hI hg hs

end TransitionSystem
