/-
# Deadlines

General infrastructure: how long one party of a transition system takes, by a clock that is
part of the state.  The other parties may take as long as they like.

* `Party` : what is known of the party: whether it is under way, how many steps it has before
  it at most, whether it sleeps and until when, and how much sleep it has before it.
* `timed` : the system with a stopwatch for the party.  Time does not pass over the moment at
  which the party is to wake up, and while it is awake no more than `slack` passes without
  progress.
* `Punctual` : every step of the system keeps the party within its steps and its sleep.
* `Punctual.in_time` : then it is under way for no longer than its sleep and `slack` for each
  of its steps.
-/
import Ecdysis.TransitionSystem

variable {σ ε : Type*} {M : TransitionSystem σ ε}

/-- One party.  `rank` is the number of steps it has before it at most, `wake` the moment until
which it sleeps, and `rest` the time it has still to sleep, now and later. -/
structure Party (σ : Type*) where
  active : σ → Bool
  rank : σ → ℕ
  wake : σ → Option ℕ
  rest : σ → ℕ

/-- When the party has begun, and when it last made progress. -/
structure Stopwatch where
  begun : ℕ
  last : ℕ

namespace Party

variable {p : Party σ} {now : σ → ℕ} {slack budget : ℕ} {s s' : σ} {x x' : Stopwatch} {e : ε}

/-- Time may have come to `t`. -/
def permits (p : Party σ) (slack : ℕ) (s : σ) (x : Stopwatch) (t : ℕ) : Bool :=
  !p.active s || match p.wake s with
    | some wake => t ≤ wake
    | none => t ≤ x.last + slack

/-- The stopwatch after a step that ends at the time `t`.  Sleep counts as progress. -/
def advance (p : Party σ) (s : σ) (x : Stopwatch) (s' : σ) (t : ℕ) : Stopwatch :=
  if p.active s then
    if p.rank s' = p.rank s ∧ p.wake s = none then x else { x with last := t }
  else if p.active s' then ⟨t, t⟩
  else x

/-- The system with a stopwatch for the party, which is given `slack`.  A pause that goes on
when the party has woken up is two steps, one up to that moment and one from it. -/
def timed (M : TransitionSystem σ ε) (p : Party σ) (now : σ → ℕ) (slack : ℕ) :
    TransitionSystem (σ × Stopwatch) ε where
  Init := fun r => M.Init r.1 ∧ r.2 = ⟨now r.1, now r.1⟩
  step := fun r e => (M.step r.1 e).bind fun s' =>
    if p.permits slack r.1 r.2 (now s') then
      some (s', p.advance r.1 r.2 s' (now s'))
    else none

theorem timed_step_eq_some (h : (timed M p now slack).step (s, x) e = some (s', x')) :
    M.step s e = some s' ∧ p.permits slack s x (now s') = true ∧
      x' = p.advance s x s' (now s') := by
  obtain ⟨t, ht, h⟩ := Option.bind_eq_some_iff.mp h
  split at h
  · rename_i hpermits
    cases h
    exact ⟨ht, hpermits, rfl⟩
  · cases h

theorem reachable_of_timed {r : σ × Stopwatch} (hr : (timed M p now slack).Reachable r) :
    M.Reachable r.1 := by
  refine TransitionSystem.ReachableVia.map (M := timed M p now slack) Prod.fst
    (fun r hinit => hinit.1) (fun r e r' _ _ h => ?_) hr
  exact .inr ⟨e, trivial, (timed_step_eq_some h).1⟩

/-- Every step keeps the party within its steps and its sleep. -/
structure Punctual (M : TransitionSystem σ ε) (p : Party σ) (now : σ → ℕ)
    (slack budget : ℕ) : Prop where
  idle : ∀ s, M.Init s → p.active s = false
  pending : ∀ s, M.Reachable s → p.active s = true → 0 < p.rank s
  starts : ∀ s e s', M.Reachable s → M.step s e = some s' → p.active s = false →
    p.active s' = true → slack * p.rank s' + p.rest s' ≤ budget
  /-- The party makes progress, or goes on to wait for what it waits for. -/
  waits : ∀ s e s', M.Reachable s → M.step s e = some s' → p.active s = true →
    p.rank s' < p.rank s ∨ p.rank s' = p.rank s ∧ p.wake s' = p.wake s
  /-- It does not get more to sleep, and what it sleeps is counted. -/
  sleeps : ∀ s e s', M.Reachable s → M.step s e = some s' → p.active s = true →
    p.rest s' ≤ p.rest s ∧
      ∀ wake, p.wake s = some wake → now s' ≤ wake → now s' + p.rest s' ≤ now s + p.rest s

/-- What a stopwatch shows. -/
structure Within (p : Party σ) (now : σ → ℕ) (slack budget : ℕ) (s : σ) (x : Stopwatch) :
    Prop where
  last : x.last ≤ x.begun + budget
  left : p.active s = true → x.last + slack * p.rank s + p.rest s ≤ x.begun + budget
  awake : p.active s = true → p.wake s = none → now s ≤ x.last + slack
  asleep : p.active s = true → p.wake s ≠ none → x.last = now s

/-- **Step lemma**: a step of a system in which the party is punctual. -/
theorem Within.step (h : Punctual M p now slack budget) (hr : M.Reachable s)
    (hx : p.Within now slack budget s x) (hs : M.step s e = some s')
    (hpermits : p.permits slack s x (now s') = true) :
    p.Within now slack budget s' (p.advance s x s' (now s')) := by
  cases hactive : p.active s with
  | false =>
    cases hactive' : p.active s' with
    | false =>
      have hsame : p.advance s x s' (now s') = x := by simp [advance, hactive, hactive']
      rw [hsame]
      exact ⟨hx.last, by simp [hactive'], by simp [hactive'], by simp [hactive']⟩
    | true =>
      have hnew : p.advance s x s' (now s') = ⟨now s', now s'⟩ := by
        simp [advance, hactive, hactive']
      rw [hnew]
      have hbudget := h.starts s e s' hr hs hactive hactive'
      exact ⟨Nat.le_add_right _ _, fun _ => by dsimp only; omega, fun _ _ => Nat.le_add_right _ _,
        fun _ _ => rfl⟩
  | true =>
    have hleft := hx.left hactive
    obtain ⟨hrest, hcounted⟩ := h.sleeps s e s' hr hs hactive
    by_cases hsame : p.rank s' = p.rank s ∧ p.wake s = none
    -- the party is awake and goes on to wait
    · obtain ⟨hrank, hawake⟩ := hsame
      have hx' : p.advance s x s' (now s') = x := by simp [advance, hactive, hrank, hawake]
      have htime : now s' ≤ x.last + slack := by simpa [permits, hactive, hawake] using hpermits
      have hwake : p.wake s' = none := by
        rcases h.waits s e s' hr hs hactive with hlt | ⟨-, heq⟩
        · omega
        · rw [heq, hawake]
      rw [hx']
      refine ⟨hx.last, fun _ => ?_, fun _ _ => htime, fun _ hne => absurd hwake hne⟩
      rw [hrank]
      omega
    -- it makes progress, or it sleeps
    · have hx' : p.advance s x s' (now s') = { x with last := now s' } := by
        simp [advance, hactive, hsame]
      have hspent : now s' + slack * p.rank s' + p.rest s' ≤ x.begun + budget := by
        cases hwake : p.wake s with
        | none =>
          have htime : now s' ≤ x.last + slack := by
            simpa [permits, hactive, hwake] using hpermits
          have hpos := h.pending s hr hactive
          have hlt : p.rank s' < p.rank s :=
            (h.waits s e s' hr hs hactive).resolve_right fun heq => hsame ⟨heq.1, hwake⟩
          have hmul : slack * p.rank s' + slack ≤ slack * p.rank s := by
            have := Nat.mul_le_mul_left slack hlt
            rwa [Nat.mul_succ] at this
          omega
        | some wake =>
          have htime : now s' ≤ wake := by simpa [permits, hactive, hwake] using hpermits
          have hnow := hx.asleep hactive (by simp [hwake])
          have hcount := hcounted wake hwake htime
          have hmul : slack * p.rank s' ≤ slack * p.rank s := by
            apply Nat.mul_le_mul_left
            rcases h.waits s e s' hr hs hactive with hlt | ⟨heq, -⟩ <;> omega
          omega
      rw [hx']
      exact ⟨by dsimp only; omega, fun _ => hspent, fun _ _ => Nat.le_add_right _ _,
        fun _ _ => rfl⟩

theorem Punctual.within (h : Punctual M p now slack budget) {r : σ × Stopwatch}
    (hr : (timed M p now slack).Reachable r) : p.Within now slack budget r.1 r.2 := by
  refine hr.invariant (I := fun r => p.Within now slack budget r.1 r.2) ?_ ?_
  · rintro ⟨s, x⟩ ⟨hinit, hx⟩
    obtain rfl : x = ⟨now s, now s⟩ := hx
    have hidle : p.active s = false := h.idle s hinit
    exact ⟨Nat.le_add_right _ _, by simp [hidle], by simp [hidle], by simp [hidle]⟩
  · rintro ⟨s, x⟩ e ⟨s', x'⟩ hr hx hs
    obtain ⟨hstep, hpermits, rfl⟩ := timed_step_eq_some hs
    exact hx.step h (reachable_of_timed hr) hstep hpermits

/-- **The party is in time**: its last progress, and all the time it is under way, is at most
`budget` after its beginning. -/
theorem Punctual.in_time (h : Punctual M p now slack budget) {r : σ × Stopwatch}
    (hr : (timed M p now slack).Reachable r) :
    r.2.last ≤ r.2.begun + budget ∧ (p.active r.1 = true → now r.1 ≤ r.2.begun + budget) := by
  have hx := h.within hr
  refine ⟨hx.last, fun hactive => ?_⟩
  have hleft := hx.left hactive
  by_cases hawake : p.wake r.1 = none
  · have hnow := hx.awake hactive hawake
    have hpos := h.pending r.1 (reachable_of_timed hr) hactive
    have hmul : slack ≤ slack * p.rank r.1 := Nat.le_mul_of_pos_right slack hpos
    omega
  · have hnow := hx.asleep hactive hawake
    omega

end Party
