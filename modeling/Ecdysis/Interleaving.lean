/-
# Interleaved components over a shared state

General infrastructure: any number of identical components, indexed by `ι`, each
with a local state `κ`, that take turns acting on one shared state `σ`, while an
environment may change the shared state between their steps: threads with a flag
and a clock, for instance.

The proof rule `invariant` is the interference-freedom rule for such systems: an
assertion `L` about the shared state and one component, and a relation `X` between
two components, hold throughout if each step keeps `L` of the component that
moves and does not invalidate `L` and `X` for the ones that do not.
-/
import Ecdysis.TransitionSystem

/-- What one component can do to its local state and the shared one, and what the
environment can do to the shared one. -/
structure Interleaving (σ κ α η : Type*) where
  act : σ → κ → α → Option (σ × κ)
  env : σ → η → Option σ

namespace Interleaving

variable {ι σ κ α η : Type*} [DecidableEq ι]

/-- A state of the whole system. -/
structure State (ι σ κ : Type*) where
  shared : σ
  comp : ι → κ

/-- An event: component `i` acts, or the environment does. -/
inductive Event (ι α η : Type*)
  | act (i : ι) (a : α)
  | env (h : η)

/-- One step of the whole system. -/
def step (P : Interleaving σ κ α η) (s : State ι σ κ) : Event ι α η → Option (State ι σ κ)
  | .act i a => (P.act s.shared (s.comp i) a).map fun r => ⟨r.1, Function.update s.comp i r.2⟩
  | .env h => (P.env s.shared h).map fun g => ⟨g, s.comp⟩

/-- The system in which all components start in the local state `k₀`. -/
def system (P : Interleaving σ κ α η) (ι : Type*) [DecidableEq ι] (g₀ : σ) (k₀ : κ) :
    TransitionSystem (State ι σ κ) (Event ι α η) where
  Init := fun s => s = ⟨g₀, fun _ => k₀⟩
  step := P.step

variable {P : Interleaving σ κ α η}

/-- What a step of a component does: the component and the shared state change as
`act` says, the other components stay as they are. -/
theorem step_act_eq_some {s s' : State ι σ κ} {i : ι} {a : α} :
    P.step s (.act i a) = some s' ↔
      ∃ g k, P.act s.shared (s.comp i) a = some (g, k)
        ∧ s' = ⟨g, Function.update s.comp i k⟩ := by
  constructor
  · intro h
    obtain ⟨⟨g, k⟩, hact, rfl⟩ := Option.map_eq_some_iff.mp h
    exact ⟨g, k, hact, rfl⟩
  · rintro ⟨g, k, hact, rfl⟩
    simp [step, hact]

/-- What a step of the environment does. -/
theorem step_env_eq_some {s s' : State ι σ κ} {h : η} :
    P.step s (.env h) = some s' ↔ ∃ g, P.env s.shared h = some g ∧ s' = ⟨g, s.comp⟩ := by
  constructor
  · intro hs
    obtain ⟨g, henv, rfl⟩ := Option.map_eq_some_iff.mp hs
    exact ⟨g, henv, rfl⟩
  · rintro ⟨g, henv, rfl⟩
    simp [step, henv]

/-- `L` of every component with the shared state, `X` of every two components. -/
def Holds (L : σ → κ → Prop) (X : κ → κ → Prop) (s : State ι σ κ) : Prop :=
  (∀ i, L s.shared (s.comp i)) ∧ ∀ i j, i ≠ j → X (s.comp i) (s.comp j)

/-- **Interference freedom, one step.** -/
theorem holds_step {L : σ → κ → Prop} {X : κ → κ → Prop}
    (hsymm : ∀ k l, X k l → X l k)
    {s : State ι σ κ} (hI : Holds L X s) {i : ι} {g : σ} {k : κ} (hown : L g k)
    (hother : ∀ j, j ≠ i → L g (s.comp j) ∧ X k (s.comp j)) :
    Holds L X ⟨g, Function.update s.comp i k⟩ := by
  refine ⟨fun j => ?_, fun j l hjl => ?_⟩
  · show L g (Function.update s.comp i k j)
    by_cases hj : j = i
    · subst hj
      rw [Function.update_self]
      exact hown
    · rw [Function.update_of_ne hj]
      exact (hother j hj).1
  · show X (Function.update s.comp i k j) (Function.update s.comp i k l)
    by_cases hj : j = i
    · subst hj
      rw [Function.update_self, Function.update_of_ne hjl.symm]
      exact (hother l hjl.symm).2
    · rw [Function.update_of_ne hj]
      by_cases hl : l = i
      · subst hl
        rw [Function.update_self]
        exact hsymm _ _ (hother j hj).2
      · rw [Function.update_of_ne hl]
        exact hI.2 j l hjl

/-- **Interference freedom.**  `L` and `X` hold in every state reached if the
initial local state meets them, every step establishes `L` for the component that
moves, and leaves `L` and `X` true of the others. -/
theorem invariant {L : σ → κ → Prop} {X : κ → κ → Prop} {g₀ : σ} {k₀ : κ}
    {G : State ι σ κ → Event ι α η → Prop}
    (hsymm : ∀ k l, X k l → X l k) (hL : L g₀ k₀) (hX : X k₀ k₀)
    (hown : ∀ (s : State ι σ κ) i a g k, (P.system ι g₀ k₀).ReachableVia G s →
      Holds L X s → G s (.act i a) → P.act s.shared (s.comp i) a = some (g, k) → L g k)
    (hother : ∀ (s : State ι σ κ) i a g k j, (P.system ι g₀ k₀).ReachableVia G s →
      Holds L X s → G s (.act i a) → P.act s.shared (s.comp i) a = some (g, k) → j ≠ i →
        L g (s.comp j) ∧ X k (s.comp j))
    (henv : ∀ g h g' k, L g k → P.env g h = some g' → L g' k)
    {s : State ι σ κ} (hr : (P.system ι g₀ k₀).ReachableVia G s) : Holds L X s := by
  refine hr.invariant ?_ ?_
  · rintro s rfl
    exact ⟨fun _ => hL, fun _ _ _ => hX⟩
  · rintro s (⟨i, a⟩ | h) s' hs₀ hI hG hs
    · obtain ⟨g, k, hact, rfl⟩ := step_act_eq_some.mp hs
      exact holds_step hsymm hI (hown s i a g k hs₀ hI hG hact)
        fun j hj => hother s i a g k j hs₀ hI hG hact hj
    · obtain ⟨g, he, rfl⟩ := step_env_eq_some.mp hs
      exact ⟨fun j => henv _ _ _ _ (hI.1 j) he, hI.2⟩

/-- The special case of an assertion about single components that does not look at
the shared state: its own steps have to keep it. -/
theorem local_invariant {L : κ → Prop} {g₀ : σ} {k₀ : κ}
    {G : State ι σ κ → Event ι α η → Prop} (hL : L k₀)
    (hown : ∀ (s : State ι σ κ) i a g k, (P.system ι g₀ k₀).ReachableVia G s →
      L (s.comp i) → G s (.act i a) → P.act s.shared (s.comp i) a = some (g, k) → L k)
    {s : State ι σ κ} (hr : (P.system ι g₀ k₀).ReachableVia G s) (i : ι) :
    L (s.comp i) := by
  have hI : Holds (fun _ => L) (fun _ _ => True) s :=
    invariant (fun _ _ _ => trivial) hL trivial
      (fun s i a g k hs hI hG hact => hown s i a g k hs (hI.1 i) hG hact)
      (fun s i a g k j _ hI _ _ _ => ⟨hI.1 j, trivial⟩)
      (fun _ _ _ _ hk _ => hk) hr
  exact hI.1 i

end Interleaving
