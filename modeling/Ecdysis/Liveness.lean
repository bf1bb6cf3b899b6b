/-
# What must happen: fair executions and the ranking rule

General infrastructure: infinite executions of a transition system, obligations that a
scheduler, a clock or an operating system meets, and the rule that turns them into
progress.

* `Execution` : an infinite sequence of states, each from the one before by a step or by
  no step at all, so that a run that has ended is an execution too.
* `Obligation` : what has to be done while it is pending; `Obligation.task` is the weak
  fairness of a set of events, `Obligation.reach` the arrival at a state.
* `Execution.leadsTo` : while the goal has not been reached, some obligation is pending;
  a step either takes the rank down or leaves it and the obligation as they are, and the
  step that meets the obligation takes it down.  Then the goal is reached.
* `count_le_of_rank` : what the steps that take the rank down add up to in a run of any
  kind, fair or not.
-/
import Ecdysis.TransitionSystem

namespace TransitionSystem

variable {σ ε : Type*} {M : TransitionSystem σ ε}

/-! ## Executions -/

/-- One step, or none. -/
def Next (M : TransitionSystem σ ε) (s : σ) : Option ε → σ → Prop
  | some e, s' => M.step s e = some s'
  | none, s' => s' = s

/-- An infinite execution. -/
structure Execution (M : TransitionSystem σ ε) where
  state : ℕ → σ
  event : ℕ → Option ε
  start : M.Init (state 0)
  next : ∀ n, M.Next (state n) (event n) (state (n + 1))

namespace Execution

/-- The states of an execution are reachable. -/
theorem reachable (x : M.Execution) (n : ℕ) : M.Reachable (x.state n) := by
  induction n with
  | zero => exact .init x.start
  | succ n ih =>
    have hnext := x.next n
    cases hev : x.event n with
    | none =>
      rw [hev] at hnext
      have hsame : x.state (n + 1) = x.state n := hnext
      rw [hsame]
      exact ih
    | some e =>
      rw [hev] at hnext
      exact ih.step hnext

end Execution

/-! ## Obligations -/

/-- Something that has to be done while it is pending, and the steps that do it. -/
structure Obligation (σ ε : Type*) where
  pending : σ → Prop
  met : σ → Option ε → σ → Prop

/-- A set of events that may not be held back for ever while one of them is possible and
wanted. -/
def Obligation.task (M : TransitionSystem σ ε) (wanted : σ → Prop) (A : ε → Prop) :
    Obligation σ ε where
  pending := fun s => wanted s ∧ ∃ e, A e ∧ (M.step s e).isSome
  met := fun _ e _ => ∃ a, e = some a ∧ A a

/-- A state that has to be arrived at while it is due. -/
def Obligation.reach (due arrived : σ → Prop) : Obligation σ ε where
  pending := due
  met := fun _ _ s' => arrived s'

/-- The execution meets the obligation again and again, or it is no longer pending. -/
def Execution.Meets (x : M.Execution) (o : Obligation σ ε) : Prop :=
  ∀ n, ∃ m, n ≤ m ∧
    (¬ o.pending (x.state m) ∨ o.met (x.state m) (x.event m) (x.state (m + 1)))

/-! ## The ranking rule -/

section

variable {ι α : Type*} [Preorder α] {P Q : σ → Prop} {o : ι → Obligation σ ε}

/-- What one step of an execution does under the rule: it reaches the goal, takes the rank
down, or changes nothing that matters. -/
def Progress (P Q : σ → Prop) (help : σ → ι) (o : ι → Obligation σ ε) (rank : σ → α)
    (s : σ) (e : Option ε) (s' : σ) : Prop :=
  Q s' ∨ P s' ∧
    (rank s' < rank s ∨
      rank s' = rank s ∧ help s' = help s ∧ ¬ (o (help s)).met s e s')

/-- Until the goal is reached or the rank goes down, the helpful obligation stays the same
and is not met. -/
theorem Execution.stays (x : M.Execution) {help : σ → ι} {rank : σ → α}
    (hprogress : ∀ n, P (x.state n) → ¬ Q (x.state n) →
      Progress P Q help o rank (x.state n) (x.event n) (x.state (n + 1)))
    {n : ℕ} (hP : P (x.state n)) (hQ : ∀ m, n ≤ m → ¬ Q (x.state m))
    (hrank : ∀ m, n ≤ m → P (x.state m) → ¬ rank (x.state m) < rank (x.state n))
    (m : ℕ) (hm : n ≤ m) :
    P (x.state m) ∧ rank (x.state m) = rank (x.state n) ∧ help (x.state m) = help (x.state n) ∧
      ¬ (o (help (x.state n))).met (x.state m) (x.event m) (x.state (m + 1)) := by
  have hstep : ∀ m, n ≤ m → P (x.state m) → rank (x.state m) = rank (x.state n) →
      P (x.state (m + 1)) ∧ rank (x.state (m + 1)) = rank (x.state m) ∧
        help (x.state (m + 1)) = help (x.state m) ∧
        ¬ (o (help (x.state m))).met (x.state m) (x.event m) (x.state (m + 1)) := by
    intro m hm hPm heq
    rcases hprogress m hPm (hQ m hm) with hgoal | ⟨hP', hlt | hsame⟩
    · exact absurd hgoal (hQ (m + 1) (by omega))
    · rw [heq] at hlt
      exact absurd hlt (hrank (m + 1) (by omega) hP')
    · exact ⟨hP', hsame⟩
  have hwalk : P (x.state m) ∧ rank (x.state m) = rank (x.state n) ∧
      help (x.state m) = help (x.state n) := by
    induction m, hm using Nat.le_induction with
    | base => exact ⟨hP, rfl, rfl⟩
    | succ m hm ih =>
      obtain ⟨hPm, heq, hhelp⟩ := ih
      obtain ⟨hP', heq', hhelp', -⟩ := hstep m hm hPm heq
      exact ⟨hP', heq'.trans heq, hhelp'.trans hhelp⟩
  obtain ⟨hPm, heq, hhelp⟩ := hwalk
  obtain ⟨-, -, -, hnot⟩ := hstep m hm hPm heq
  rw [hhelp] at hnot
  exact ⟨hPm, heq, hhelp, hnot⟩

/-- **The ranking rule**, for a single execution. -/
theorem Execution.leadsTo_of_progress [WellFoundedLT α] (x : M.Execution)
    (help : σ → ι) (rank : σ → α) (hmeets : ∀ i, x.Meets (o i))
    (hpending : ∀ n, P (x.state n) → ¬ Q (x.state n) →
      (o (help (x.state n))).pending (x.state n))
    (hprogress : ∀ n, P (x.state n) → ¬ Q (x.state n) →
      Progress P Q help o rank (x.state n) (x.event n) (x.state (n + 1)))
    {n : ℕ} (hP : P (x.state n)) : ∃ m, n ≤ m ∧ Q (x.state m) := by
  -- by induction on the rank: if it never goes down, the helpful obligation stays pending
  -- and is never met
  induction hr : rank (x.state n) using WellFoundedLT.induction generalizing n with
  | ind r ih =>
    by_contra hnever
    push Not at hnever
    have hrank : ∀ m, n ≤ m → P (x.state m) → ¬ rank (x.state m) < rank (x.state n) := by
      intro m hm hPm hlt
      obtain ⟨l, hl, hgoal⟩ := ih _ (hr ▸ hlt) hPm rfl
      exact hnever l (hm.trans hl) hgoal
    have hstays := x.stays hprogress hP hnever hrank
    obtain ⟨m, hm, hmet⟩ := hmeets (help (x.state n)) n
    obtain ⟨hPm, -, hhelp, hnot⟩ := hstays m hm
    rcases hmet with hfree | hmet
    · rw [← hhelp] at hfree
      exact hfree (hpending m hPm (hnever m hm))
    · exact hnot hmet

/-- **The ranking rule**: the premises are about states and steps. -/
theorem Execution.leadsTo [WellFoundedLT α] (x : M.Execution)
    (help : σ → ι) (rank : σ → α) (hmeets : ∀ i, x.Meets (o i))
    (hpending : ∀ s, M.Reachable s → P s → ¬ Q s → (o (help s)).pending s)
    (hidle : ∀ s, M.Reachable s → P s → ¬ Q s → ¬ (o (help s)).met s none s)
    (hstep : ∀ s e s', M.Reachable s → P s → ¬ Q s → M.step s e = some s' →
      Progress P Q help o rank s (some e) s')
    {n : ℕ} (hP : P (x.state n)) : ∃ m, n ≤ m ∧ Q (x.state m) := by
  refine x.leadsTo_of_progress help rank hmeets (fun m => hpending _ (x.reachable m))
    (fun m hPm hQm => ?_) hP
  have hnext := x.next m
  cases hev : x.event m with
  | some e =>
    rw [hev] at hnext
    exact hstep _ e _ (x.reachable m) hPm hQm hnext
  | none =>
    rw [hev] at hnext
    have hsame : x.state (m + 1) = x.state m := hnext
    rw [hsame]
    exact .inr ⟨hPm, .inr ⟨rfl, rfl, hidle _ (x.reachable m) hPm hQm⟩⟩

end

/-! ## How often the rank goes down -/

/-- Steps that never take a rank up take it down at most as often as it is high. -/
theorem count_le_of_rank (rank : σ → ℕ) {A : ε → Bool} {I : σ → Prop}
    (hkeep : ∀ s e s', I s → M.step s e = some s' → I s')
    (hstep : ∀ s e s', I s → M.step s e = some s' →
      rank s' + (if A e then 1 else 0) ≤ rank s)
    {s s' : σ} {es : List ε} (hs : I s) (hrun : M.run s es = some s') :
    es.countP A + rank s' ≤ rank s := by
  induction es generalizing s with
  | nil =>
    cases hrun
    simp
  | cons e es ih =>
    rw [run_cons, Option.bind_eq_some_iff] at hrun
    obtain ⟨t, ht, hrest⟩ := hrun
    have hhead := hstep s e t hs ht
    have htail := ih (hkeep s e t hs ht) hrest
    rw [List.countP_cons]
    omega

/-! ## From finite runs to executions -/

/-- An execution that does the events of a run and then goes on as given. -/
theorem exists_execution {s₀ s : σ} {es : List ε} (tail : ℕ → σ) (events : ℕ → Option ε)
    (h0 : M.Init s₀) (hrun : M.run s₀ es = some s) (htail : tail 0 = s)
    (hnext : ∀ n, M.Next (tail n) (events n) (tail (n + 1))) :
    ∃ x : M.Execution, (∀ n, n ≤ es.length → M.run s₀ (es.take n) = some (x.state n)) ∧
      ∀ n, x.state (es.length + n) = tail n ∧ x.event (es.length + n) = events n := by
  have hseq : ∃ (state : ℕ → σ) (event : ℕ → Option ε),
      (∀ n, n ≤ es.length → M.run s₀ (es.take n) = some (state n)) ∧
      (∀ n, M.Next (state n) (event n) (state (n + 1))) ∧
      ∀ n, state (es.length + n) = tail n ∧ event (es.length + n) = events n := by
    clear h0
    induction es generalizing s₀ with
    | nil =>
      cases hrun
      refine ⟨tail, events, fun n hn => ?_, hnext, fun n => by simp⟩
      obtain rfl : n = 0 := by simpa using hn
      simp [htail]
    | cons e es ih =>
      rw [run_cons, Option.bind_eq_some_iff] at hrun
      obtain ⟨t, ht, hrest⟩ := hrun
      obtain ⟨state, event, halong, hsteps, hafter⟩ := ih hrest
      have hstart : state 0 = t := by
        have h := halong 0 (by omega)
        simpa using h.symm
      refine ⟨fun n => n.casesOn s₀ state, fun n => n.casesOn (some e) event,
        fun n hn => ?_, fun n => ?_, fun n => ?_⟩
      · cases n with
        | zero => rfl
        | succ n =>
          rw [List.take_succ_cons, run_cons, ht, Option.bind_some]
          exact halong n (by simpa using hn)
      · cases n with
        | zero =>
          show M.step s₀ e = some (state 0)
          rw [ht, hstart]
        | succ n => exact hsteps n
      · have hlen : (e :: es).length + n = (es.length + n) + 1 := by
          rw [List.length_cons]
          omega
        rw [hlen]
        exact hafter n
  obtain ⟨state, event, halong, hsteps, hafter⟩ := hseq
  have hstart : state 0 = s₀ := by
    have h := halong 0 (by omega)
    simpa using h.symm
  exact ⟨⟨state, event, hstart ▸ h0, hsteps⟩, halong, hafter⟩

/-- An execution that meets an obligation from some position on meets it. -/
theorem Execution.meets_of_late (x : M.Execution) {o : Obligation σ ε} (k : ℕ)
    (h : ∀ n, ∃ m, n ≤ m ∧ (¬ o.pending (x.state (k + m)) ∨
      o.met (x.state (k + m)) (x.event (k + m)) (x.state (k + m + 1)))) : x.Meets o := by
  intro n
  obtain ⟨m, hm, hmet⟩ := h n
  exact ⟨k + m, by omega, hmet⟩

end TransitionSystem
