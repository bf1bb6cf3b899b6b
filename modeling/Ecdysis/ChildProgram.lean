/-
# Children that use the library

The upgrade procedure lets a child do anything to its ready pipe.  A child that uses
this library holds the write end in its `Ecdysis` and does one of two things with it:
`ready` writes `OK` and drops it, or the `Ecdysis` is dropped without `ready` having
been called; it may exit at any moment.  It passes the write end to no command that it
starts, so its exit ends the pipe.  `Family` is the upgrade procedure with such
children; `Family.Sound` is what then links where a child stands to its pipe.
-/
import Ecdysis.UpgradeOutcome

namespace Executioner

/-- Where the child of a call stands: it has not called `ready`; it is in `ready` and has
these bytes left to write to the pipe; it has closed the pipe after that; it has dropped
its `Ecdysis`, and with it the pipe, without calling `ready`. -/
inductive Prog
  | fresh
  | notifying (rest : List UInt8)
  | notified
  | dropped
  deriving DecidableEq

/-- The child has called `ready`. -/
def Prog.called : Prog → Bool
  | .notifying _ | .notified => true
  | .fresh | .dropped => false

/-- All calls of the upgrade procedure, and where their children stand. -/
structure Family where
  sys : Sys
  prog : ℕ → Prog

namespace Family

/-- What can happen: a thread of the upgrade procedure moves or time passes; the child of
call `c` calls `ready`, writes a byte, closes its pipe, exits. -/
inductive Event
  | thread (e : Executioner.Event)
  | ready (c : ℕ)
  | notify (c : ℕ)
  | close (c : ℕ)
  | exit (c : ℕ)

/-- The event is a child's, not a thread's. -/
def ofChild : Executioner.Event → Bool
  | .act _ (.child _) => true
  | _ => false

/-- The child of call `c` does `a` and then stands at `p`. -/
def move (F : Family) (c : ℕ) (a : ChildAct) (p : Prog) : Option Family :=
  (system.step F.sys (.act c (.child a))).map fun s => ⟨s, Function.update F.prog c p⟩

/-- One step. -/
def step (F : Family) : Event → Option Family
  | .thread e => if ofChild e then none else (system.step F.sys e).map fun s => ⟨s, F.prog⟩
  | .ready c =>
    if (F.sys.comp c).child.alive ∧ F.prog c = .fresh then
      some ⟨F.sys, Function.update F.prog c (.notifying okBytes)⟩
    else none
  | .notify c =>
    match F.prog c with
    | .notifying (b :: rest) => F.move c (.write b) (.notifying rest)
    | _ => none
  | .close c =>
    match F.prog c with
    | .fresh => F.move c .close .dropped
    | .notifying _ => F.move c .close .notified
    | .notified | .dropped => none
  | .exit c => F.move c .exit (F.prog c)

/-- No call has been made. -/
def init : Family := ⟨Sys.init, fun _ => .fresh⟩

variable {F F' : Family} {e : Event} {c : ℕ}

/-- What each event does. -/
theorem step_eq_some (h : F.step e = some F') :
    (∃ e' s, e = .thread e' ∧ ofChild e' = false ∧ system.step F.sys e' = some s ∧
      F' = ⟨s, F.prog⟩) ∨
    (∃ c, e = .ready c ∧ (F.sys.comp c).child.alive = true ∧ F.prog c = .fresh ∧
      F' = ⟨F.sys, Function.update F.prog c (.notifying okBytes)⟩) ∨
    (∃ c a s p, system.step F.sys (.act c (.child a)) = some s ∧
      F' = ⟨s, Function.update F.prog c p⟩ ∧
      ((∃ b rest, e = .notify c ∧ a = .write b ∧ F.prog c = .notifying (b :: rest)
          ∧ p = .notifying rest) ∨
        (e = .close c ∧ a = .close ∧ F.prog c = .fresh ∧ p = .dropped) ∨
        (∃ rest, e = .close c ∧ a = .close ∧ F.prog c = .notifying rest ∧ p = .notified) ∨
        (e = .exit c ∧ a = .exit ∧ p = F.prog c))) := by
  cases e with
  | thread e' =>
    simp only [step] at h
    split at h
    · cases h
    · rename_i hchild
      obtain ⟨s, hs, rfl⟩ := Option.map_eq_some_iff.mp h
      exact .inl ⟨e', s, rfl, by simpa using hchild, hs, rfl⟩
  | ready c =>
    simp only [step] at h
    split at h
    · rename_i hc
      cases h
      exact .inr (.inl ⟨c, rfl, hc.1, hc.2, rfl⟩)
    · cases h
  | notify c =>
    simp only [step] at h
    split at h
    · rename_i b rest hprog
      obtain ⟨s, hs, rfl⟩ := Option.map_eq_some_iff.mp h
      exact .inr (.inr ⟨c, _, s, _, hs, rfl, .inl ⟨b, rest, rfl, rfl, hprog, rfl⟩⟩)
    · cases h
  | close c =>
    simp only [step] at h
    split at h
    · rename_i hprog
      obtain ⟨s, hs, rfl⟩ := Option.map_eq_some_iff.mp h
      exact .inr (.inr ⟨c, _, s, _, hs, rfl, .inr (.inl ⟨rfl, rfl, hprog, rfl⟩)⟩)
    · rename_i rest hprog
      obtain ⟨s, hs, rfl⟩ := Option.map_eq_some_iff.mp h
      exact .inr (.inr ⟨c, _, s, _, hs, rfl, .inr (.inr (.inl ⟨rest, rfl, rfl, hprog, rfl⟩))⟩)
    · cases h
    · cases h
  | exit c =>
    obtain ⟨s, hs, rfl⟩ := Option.map_eq_some_iff.mp h
    exact .inr (.inr ⟨c, _, s, _, hs, rfl, .inr (.inr (.inr ⟨rfl, rfl, rfl⟩))⟩)

/-- A step of the family is a step of the upgrade procedure, or leaves it alone. -/
theorem sys_step (h : F.step e = some F') :
    F'.sys = F.sys ∨ ∃ e', system.step F.sys e' = some F'.sys := by
  rcases step_eq_some h with ⟨e', s, -, -, hs, rfl⟩ | ⟨c, -, -, -, rfl⟩ | ⟨c, a, s, p, hs, rfl, -⟩
  · exact .inr ⟨e', hs⟩
  · exact .inl rfl
  · exact .inr ⟨_, hs⟩

/-- Results stay what they are. -/
theorem result_step {res : UpgradeFinished} (h : F.step e = some F')
    (hres : (F.sys.comp c).main.result = some res) :
    (F'.sys.comp c).main.result = some res := by
  rcases sys_step h with heq | ⟨e', hs⟩
  · rw [heq]
    exact hres
  · rcases step_cases hs with ⟨d, a, g', k', -, hact, hF'⟩ | ⟨ms, -, hF'⟩
    · rw [hF']
      by_cases hd : c = d
      · subst hd
        simp only [Function.update_self]
        exact Call.result_act hres hact
      · simp only [Function.update_of_ne hd]
        exact hres
    · rw [hF']
      exact hres

/-- Who has called `ready`. -/
theorem called_step (h : F.step e = some F') (c : ℕ) :
    (F'.prog c).called = true ↔ (F.prog c).called = true ∨ e = .ready c := by
  rcases step_eq_some h with ⟨e', s, rfl, -, -, rfl⟩ | ⟨d, rfl, -, -, rfl⟩ |
    ⟨d, a, s, p, -, rfl, hcases⟩
  · simp
  · by_cases hd : c = d
    · subst hd
      simp [Prog.called]
    · have hne : d ≠ c := fun heq => hd heq.symm
      simp [Function.update_of_ne hd, hne]
  · have hp : p.called = (F.prog d).called ∧ e ≠ .ready c := by
      rcases hcases with ⟨b, rest, rfl, -, hprog, rfl⟩ | ⟨rfl, -, hprog, rfl⟩ |
        ⟨rest, rfl, -, hprog, rfl⟩ | ⟨rfl, -, rfl⟩
      · exact ⟨by rw [hprog]; rfl, by simp⟩
      · exact ⟨by rw [hprog]; rfl, by simp⟩
      · exact ⟨by rw [hprog]; rfl, by simp⟩
      · exact ⟨rfl, by simp⟩
    by_cases hd : c = d
    · subst hd
      simp [hp]
    · simp [Function.update_of_ne hd, hp.2]

/-! ## What the position of a child says about its pipe -/

/-- A child that has not called `ready` has written nothing; one that has not touched the
pipe holds it; one that has moved exists. -/
structure Facts (F : Family) (c : ℕ) : Prop where
  silent : (F.prog c).called = false → (F.sys.comp c).written = []
  writerOpen : F.prog c = .fresh → (F.sys.comp c).child.alive = true →
    (F.sys.comp c).ready.writerOpen = true
  born : F.prog c ≠ .fresh → (F.sys.comp c).child ≠ .unborn

/-- A step of a thread keeps the facts, and does not bring a child that has moved back to
life. -/
theorem Facts.thread {e' : Executioner.Event} {s : Sys} (hF : F.Facts c)
    (hr : system.Reachable F.sys) (hchild : ofChild e' = false)
    (hs : system.step F.sys e' = some s) :
    Facts ⟨s, F.prog⟩ c ∧
      (F.prog c ≠ .fresh → (s.comp c).child.alive = true →
        (F.sys.comp c).child.alive = true) := by
  rcases step_cases hs with ⟨d, a, g', k', rfl, hact, rfl⟩ | ⟨ms, rfl, rfl⟩
  · by_cases hd : c = d
    · subst hd
      have ha : ∀ x, a ≠ .child x := by
        rintro x rfl
        cases hchild
      rcases Call.ends_act (coherent_of_reachable hr c) ha hact with
        ⟨hw, hopen, halive, hborn⟩ | ⟨hunborn, -, hw, hopen⟩
      · refine ⟨⟨?_, ?_, ?_⟩, ?_⟩ <;> simp only [Function.update_self]
        · rw [hw]
          exact hF.silent
        · rw [hopen]
          exact fun hp hal => hF.writerOpen hp (halive hal)
        · exact fun hp => hborn (hF.born hp)
        · exact fun _ => halive
      -- the child is spawned: it has not moved, and its pipe is new
      · have hfresh : F.prog c = .fresh := by
          by_contra hne
          exact hF.born hne hunborn
        refine ⟨⟨?_, ?_, ?_⟩, ?_⟩ <;> simp only [Function.update_self]
        · exact fun _ => hw
        · exact fun _ _ => hopen
        · exact fun hne => absurd hfresh hne
        · exact fun hne => absurd hfresh hne
    -- the other calls are untouched
    · refine ⟨⟨?_, ?_, ?_⟩, ?_⟩ <;> simp only [Function.update_of_ne hd]
      · exact hF.silent
      · exact hF.writerOpen
      · exact hF.born
      · exact fun _ => id
  · exact ⟨⟨hF.silent, hF.writerOpen, hF.born⟩, fun _ => id⟩

/-- A step of the child of call `c`, after which it stands at `p`, keeps the facts of
every call. -/
theorem Facts.child {d : ℕ} {a : ChildAct} {s : Sys} {p : Prog} (hF : F.Facts d)
    (hs : system.step F.sys (.act c (.child a)) = some s)
    (hp : p ≠ .fresh ∨ a = .exit)
    (hcalled : p.called = false → (F.prog c).called = false ∧ ∀ b, a ≠ .write b) :
    Facts ⟨s, Function.update F.prog c p⟩ d ∧
      ((s.comp d).child.alive = true → (F.sys.comp d).child.alive = true) := by
  obtain ⟨k', hk', rfl⟩ := step_child hs
  obtain ⟨halive, hborn, hcases⟩ := Call.stepChild_eq_some hk'
  by_cases hd : d = c
  · subst hd
    refine ⟨⟨?_, ?_, ?_⟩, ?_⟩ <;> simp only [Function.update_self]
    · intro hfalse
      obtain ⟨hold, hne⟩ := hcalled hfalse
      rcases hcases with ⟨b, ha, _⟩ | ⟨_, _, hw⟩ | ⟨_, _, hw⟩
      · exact absurd ha (hne b)
      · rw [hw]
        exact hF.silent hold
      · rw [hw]
        exact hF.silent hold
    · intro hfresh hal
      rcases hp with hne | rfl
      · exact absurd hfresh hne
      · rcases hcases with ⟨b, ha, _⟩ | ⟨ha, _⟩ | ⟨_, hdead, _⟩
        · cases ha
        · cases ha
        · rw [hdead] at hal
          cases hal
    · exact fun _ => hborn
    · exact fun _ => halive
  · refine ⟨⟨?_, ?_, ?_⟩, ?_⟩ <;> simp only [Function.update_of_ne hd]
    · exact hF.silent
    · exact hF.writerOpen
    · exact hF.born
    · exact id

/-- The calls are in a state the upgrade procedure reaches, and the facts hold. -/
structure Sound (F : Family) : Prop where
  sys : system.Reachable F.sys
  facts : ∀ c, F.Facts c

theorem sound_init : init.Sound :=
  ⟨reachable_init, fun _ => ⟨fun _ => rfl, fun _ hf => (nomatch hf), fun hne => absurd rfl hne⟩⟩

/-- **Step lemma**: the facts are kept, and a child that has moved does not come back to
life. -/
theorem Sound.step (hF : F.Sound) (h : F.step e = some F') :
    F'.Sound ∧ ∀ c, F.prog c ≠ .fresh → (F'.sys.comp c).child.alive = true →
      (F.sys.comp c).child.alive = true := by
  have hsys : system.Reachable F'.sys := by
    rcases sys_step h with heq | ⟨e', hs⟩
    · rw [heq]
      exact hF.sys
    · exact hF.sys.step hs
  rcases step_eq_some h with ⟨e', s, rfl, hchild, hs, rfl⟩ | ⟨c, rfl, halive, hfresh, rfl⟩ |
    ⟨c, a, s, p, hs, rfl, hcases⟩
  · exact ⟨⟨hsys, fun d => ((hF.facts d).thread hF.sys hchild hs).1⟩,
      fun d => ((hF.facts d).thread hF.sys hchild hs).2⟩
  · refine ⟨⟨hsys, fun d => ?_⟩, fun _ _ => id⟩
    by_cases hd : d = c
    · subst hd
      refine ⟨?_, ?_, ?_⟩ <;> simp only [Function.update_self]
      · exact fun hf => nomatch hf
      · exact fun hf => nomatch hf
      · exact fun _ => Child.alive.born halive
    · obtain ⟨h₁, h₂, h₃⟩ := hF.facts d
      refine ⟨?_, ?_, ?_⟩ <;> simp only [Function.update_of_ne hd] <;> assumption
  · have hp : p ≠ .fresh ∨ a = .exit := by
      rcases hcases with ⟨b, rest, -, -, -, rfl⟩ | ⟨-, -, -, rfl⟩ | ⟨rest, -, -, -, rfl⟩ |
        ⟨-, rfl, -⟩
      · exact .inl (by simp)
      · exact .inl (by simp)
      · exact .inl (by simp)
      · exact .inr rfl
    have hcalled : p.called = false → (F.prog c).called = false ∧ ∀ b, a ≠ .write b := by
      rcases hcases with ⟨b, rest, -, rfl, hprog, rfl⟩ | ⟨-, rfl, hprog, rfl⟩ |
        ⟨rest, -, rfl, hprog, rfl⟩ | ⟨-, rfl, rfl⟩
      · exact fun hf => nomatch hf
      · exact fun _ => ⟨by rw [hprog]; rfl, fun _ hab => nomatch hab⟩
      · exact fun hf => nomatch hf
      · exact fun hf => ⟨hf, fun _ hab => nomatch hab⟩
    exact ⟨⟨hsys, fun d => ((hF.facts d).child hs hp hcalled).1⟩,
      fun d _ => ((hF.facts d).child hs hp hcalled).2⟩

/-- A child of a successful call has called `ready`: only then does it write anything. -/
theorem Sound.called_of_ok (hF : F.Sound)
    (hok : (F.sys.comp c).main.result = some (.ok ())) : (F.prog c).called = true := by
  by_contra hnot
  have hw := (hF.facts c).silent (by simpa using hnot)
  rw [Call.written, (log_of_result_ok hF.sys hok).1] at hw
  cases hw

/-- The live child of a failed call does not call `ready` any more. -/
theorem Sound.not_fresh_of_error (hF : F.Sound) {err : UpgradeError}
    (halive : (F.sys.comp c).child.alive = true)
    (herr : (F.sys.comp c).main.result = some (.error err)) : F.prog c ≠ .fresh := by
  intro hfresh
  have hw : (F.sys.comp c).written = [] := (hF.facts c).silent (by rw [hfresh]; rfl)
  have hdel : delivered (F.sys.comp c).log = [] := (List.append_eq_nil_iff.mp hw).1
  rcases pipe_of_error_alive hF.sys herr halive with ⟨hlen, -⟩ | ⟨-, hend⟩
  · rw [hdel] at hlen
    cases hlen
  · have hopen := (hF.facts c).writerOpen hfresh halive
    rw [hend] at hopen
    cases hopen

end Family

end Executioner
