/-
# Who is named as the main process

Two places name the main process of a service: the PID file, which the first process, every
child that calls `ready` and every parent whose attempt has failed write, and the `MAINPID`
of the last `READY` that systemd got.  `Lineage.names` records both, over all processes that
come from a first one.

* `Named` : both names, from where the processes stand; in particular the child that has
  called `ready` and has no monitor yet is in the PID file.
* `service_named` : over any number of generations, failed attempts and crashes, both name
  the process that takes triggers.  The PID file names whoever serves and waits for no
  attempt.

That nobody else writes in the meantime is `Succession.one_line`, for the processes that
serve together with those that may still come to it.
-/
import Ecdysis.Lineage

open Executioner

namespace Upgrader

/-! ## What is recorded -/

/-- The process is named, in the PID file or in a `READY`. -/
inductive Naming
  | file (a : List ℕ)
  | main (a : List ℕ)

namespace Lineage

/-- What `monitor` of the process `a` names: a parent whose attempt has failed writes its PID
file, and `READY` carries `MAINPID`. -/
def namings (a : List ℕ) : Entry → Option Naming
  | .attempted (.error _) => some (.file a)
  | .notice .ready none => some (.main a)
  | _ => none

/-- Who is named in a step; `ready` writes the PID file. -/
def names (t : Lineage) (e : Event) (t' : Lineage) : List Naming :=
  match e with
  | .own a (.family (.ready n)) => [.file (n :: a)]
  | .own a (.monitor io) =>
    match t.monitors a, t'.monitors a with
    | some w, some w' => (w.entries (.own (.monitor io)) w').filterMap (namings a)
    | _, _ => []
  | _ => []

/-- All processes have notices to systemd enabled, and none dies between the beginning of an
upgrade of its own and the moment in which its parent has seen it alive. -/
def heeds (t : Lineage) (e : Event) : Bool :=
  t.seenFirst e && match e with
    | .start _ _ _ systemd => systemd
    | _ => true

end Lineage

/-- The process named in the PID file; the first one has written it before all others. -/
def pidFile (log : List Naming) : List ℕ :=
  (log.filterMap fun
    | .file a => some a
    | .main _ => none).getLast?.getD []

/-- The process named in the last `READY`. -/
def mainPid (log : List Naming) : Option (List ℕ) :=
  (log.filterMap fun
    | .main a => some a
    | .file _ => none).getLast?

@[simp] theorem pidFile_file (log : List Naming) (a : List ℕ) :
    pidFile (log ++ [.file a]) = a := by
  simp [pidFile]

@[simp] theorem pidFile_main (log : List Naming) (a : List ℕ) :
    pidFile (log ++ [.main a]) = pidFile log := by
  simp [pidFile]

@[simp] theorem mainPid_main (log : List Naming) (a : List ℕ) :
    mainPid (log ++ [.main a]) = some a := by
  simp [mainPid]

@[simp] theorem mainPid_file (log : List Naming) (a : List ℕ) :
    mainPid (log ++ [.file a]) = mainPid log := by
  simp [mainPid]

/-! ## Attempts and turns -/

namespace World

variable {w w' : World} {parent : Proc} {triggers : List (Trigger × ExitCondition)}
  {notifier : Option (List Notice)} {n : ℕ}

theorem enabled_of_step {e : Family.Event} (h : w.step (.family e) = some w') :
    w.enabled e = true ∧ w.family.step e = some w'.family := by
  simp only [World.step] at h
  split at h
  · rename_i henabled
    obtain ⟨F, hF, rfl⟩ := Option.map_eq_some_iff.mp h
    exact ⟨henabled, hF⟩
  · cases h

/-- No child has done anything before its attempt has begun. -/
theorem fresh_of_reachable (hr : (world parent triggers notifier).Reachable w) :
    ∀ n, w.attempts ≤ n → w.family.prog n = .fresh := by
  refine hr.invariant (I := fun w => ∀ n, w.attempts ≤ n → w.family.prog n = .fresh) ?_ ?_
  · rintro w ⟨-, -, rfl⟩ n -
    rfl
  · intro w e w' _ hw h n hn
    have hle := (attempts_le_of_step h).trans hn
    rcases family_of_step h with hsame | ⟨e', rfl, hF⟩
    · rw [hsame]
      exact hw n hle
    · have henabled := (enabled_of_step h).1
      refine Family.fresh_step hF (hw n hle) ?_ ?_
      · rintro rfl
        simp only [enabled, decide_eq_true_eq] at henabled
        omega
      · rintro rfl
        simp only [enabled, decide_eq_true_eq] at henabled
        omega

/-- Whom a turn of `monitor` names, and where it leads. -/
theorem Turn.namings {p' : Point} {srcs : List (ExitReason × ExitCondition)} {es : List Entry}
    (hT : w.Turn p' srcs es) (hsome : w.notifier.isSome = true) (a : List ℕ) :
    (es.filterMap (Lineage.namings a) = [.main a] ∧ w.point = .initializing ∧ p' = .polling) ∨
    (es.filterMap (Lineage.namings a) = [.file a] ∧ p' = .initializing) ∨
    (es.filterMap (Lineage.namings a) = [] ∧ p' ≠ .polling ∧ p' ≠ .initializing) := by
  cases hT with
  | ready hp => exact .inl ⟨by simp [report, hsome, Lineage.namings], hp, rfl⟩
  | retry hp hres => exact .inr (.inl ⟨by simp [Lineage.namings], rfl⟩)
  | stopping hp =>
    exact .inr (.inr ⟨by simp [report, hsome, Lineage.namings], by simp, by simp⟩)
  | reloading hp =>
    exact .inr (.inr ⟨by simp [report, hsome, Lineage.namings], by simp, by simp⟩)
  | _ => exact .inr (.inr ⟨by simp [Lineage.namings], by simp, by simp⟩)

/-- Who is in its loop and waits for no attempt was so before, or has seen an attempt fail. -/
theorem Turn.serving {p' : Point} {srcs : List (ExitReason × ExitCondition)} {es : List Entry}
    (hT : w.Turn p' srcs es) (hserving : p'.serving = true)
    (hne : ∀ n reason, p' ≠ .awaiting n reason) :
    p' = .initializing ∨
      w.point.serving = true ∧ ∀ n reason, w.point ≠ .awaiting n reason := by
  cases hT with
  | ready hp | upgrade hp | reloading hp =>
    right
    rw [hp]
    exact ⟨rfl, by simp⟩
  | retry hp hres => exact .inl rfl
  | snapshot hp => exact absurd rfl (hne _ _)
  | _ => cases hserving

end World

/-! ## Who acts, before and after a step -/

namespace Lineage

variable {t t' : Lineage} {e : Event} {a b : List ℕ} {w v : World} {n : ℕ}
  {parent : Proc} {triggers : List (Trigger × ExitCondition)} {sent : List Notice}

/-- The process serves and waits for no attempt. -/
def InCharge (t : Lineage) (a : List ℕ) : Prop :=
  t.alive a = true ∧ ∃ w, t.monitors a = some w ∧ w.point.serving = true ∧
    ∀ n reason, w.point ≠ .awaiting n reason

/-- The child `a` has called `ready` and has no monitor yet, and its attempt has not
failed. -/
def Coming (t : Lineage) (a : List ℕ) : Prop :=
  t.alive a = true ∧ t.monitors a = none ∧ ∃ n b w, a = n :: b ∧ t.monitors b = some w ∧
    (w.family.prog n).called = true ∧ ∀ err, w.result n ≠ some (.error err)

theorem InCharge.serves (h : t.InCharge a) : t.Serves a ∧ ∀ n, ¬ t.Awaits a n := by
  obtain ⟨halive, w, hw, hserving, hne⟩ := h
  refine ⟨⟨halive, w, hw, hserving⟩, ?_⟩
  rintro n ⟨w', reason, hw', hawaits⟩
  obtain rfl : w = w' := by simpa [hw] using hw'
  exact hne n reason hawaits

theorem inCharge_of_polls (h : t.polls a = true) : t.InCharge a := by
  obtain ⟨halive, w, hw, hpoint⟩ := polls_eq_true h
  exact ⟨halive, w, hw, by rw [hpoint]; rfl, by simp [hpoint]⟩

/-- A child that has done something belongs to an attempt that has begun. -/
theorem Inv.lt_attempts (h : t.Inv) (hw : t.monitors a = some w)
    (hn : w.family.prog n ≠ .fresh) : n < w.attempts := by
  obtain ⟨p, ts, nt, hr⟩ := h.world a w hw
  by_contra hle
  exact hn (World.fresh_of_reachable hr n (by omega))

theorem Coming.acts (h : t.Coming a) (hinv : t.Inv) : t.Acts a := by
  obtain ⟨halive, hnone, n, b, w, rfl, hw, hcalled, hnot⟩ := h
  have hn : w.family.prog n ≠ .fresh := by
    intro hfresh
    rw [hfresh] at hcalled
    cases hcalled
  refine .inr ⟨halive, hnone, n, b, rfl, ⟨w, hw, hinv.lt_attempts hw hn⟩, ?_⟩
  rintro ⟨w', err, hw', herr⟩
  obtain rfl : w = w' := by simpa [hw] using hw'
  exact hnot err herr

/-- While a process is in charge, no other acts that awaits nothing. -/
theorem InCharge.unique (h : t.InCharge a) (hinv : t.Inv) (hseen : t.Seen) (hb : t.Acts b)
    (hnb : ∀ n, ¬ t.Awaits b n) : a = b := by
  obtain ⟨hserves, hna⟩ := h.serves
  rcases (succession hinv hseen).one_line (.inl hserves) hb with
    heq | ⟨n, -, hawaits⟩ | ⟨n, -, hawaits⟩
  · exact heq
  · exact absurd hawaits (hna n)
  · exact absurd hawaits (hnb n)

/-- Who has no monitor awaits nothing. -/
theorem not_awaits (hnone : t.monitors a = none) (n : ℕ) : ¬ t.Awaits a n := by
  rintro ⟨w, reason, hw, -⟩
  cases hnone.symm.trans hw

/-- Of those that act and have no monitor, there is one. -/
theorem acts_unique (hinv : t.Inv) (hseen : t.Seen) (ha : t.Acts a) (hb : t.Acts b)
    (hna : t.monitors a = none) (hnb : t.monitors b = none) : a = b := by
  rcases (succession hinv hseen).one_line ha hb with heq | ⟨n, -, hawaits⟩ | ⟨n, -, hawaits⟩
  · exact heq
  · exact absurd hawaits (not_awaits hna n)
  · exact absurd hawaits (not_awaits hnb n)

/-- Whoever has done something and runs after a step ran before it. -/
theorem alive_of_step (hinv : t.Inv) (hs : t.step e = some t') (halive : t'.alive a = true)
    (hmoved : ∀ n b w, a = n :: b → t.monitors b = some w → w.family.prog n ≠ .fresh) :
    t.alive a = true := by
  cases a with
  | nil => rfl
  | cons n b =>
    obtain ⟨w', hw', hlives⟩ := alive_cons_iff.mp halive
    rcases step_eq_some hs with ⟨c, e', u, u', -, hu, -, hstep, rfl⟩ |
      ⟨m, c, ts, sd, u, life, -, hu, -, -, hnone, -, rfl⟩
    · rcases set_eq_some.mp hw' with ⟨rfl, rfl⟩ | ⟨-, hw⟩
      · have hprog := hmoved n b u rfl hu
        refine alive_cons_iff.mpr ⟨u, hu, ?_⟩
        rcases World.family_of_step hstep with hsame | ⟨e'', -, hF⟩
        · rw [← hsame]
          exact hlives
        · exact ((hinv.family hu).step hF).2 n hprog hlives
      · exact alive_cons_iff.mpr ⟨w', hw, hlives⟩
    · rcases set_eq_some.mp hw' with ⟨-, rfl⟩ | ⟨-, hw⟩
      · cases hlives
      · exact alive_cons_iff.mpr ⟨w', hw, hlives⟩

/-- A process with a monitor has called `ready`. -/
theorem Inv.moved (hinv : t.Inv) (hv : t.monitors a = some v) :
    ∀ n b w, a = n :: b → t.monitors b = some w → w.family.prog n ≠ .fresh := by
  rintro n b w rfl hw
  obtain ⟨w', hw', hn⟩ := hinv.parent n b v hv
  obtain rfl : w = w' := by simpa [hw] using hw'
  simp only [World.readied, decide_eq_true_eq] at hn
  rw [hn.2.1]
  simp

/-- Who is in charge after a step was so before, or has just begun its loop anew: because it
is new, or because an attempt of its has failed. -/
theorem inCharge_of_step (hinv : t.Inv) (hs : t.step e = some t') (h : t'.InCharge a) :
    t.InCharge a ∨ (∃ n b ts sd, e = .start n b ts sd ∧ a = n :: b) ∨
      ∃ io w', e = .own a (.monitor io) ∧ t'.monitors a = some w' ∧ w'.point = .initializing := by
  obtain ⟨halive, w', hw', hserving, hne⟩ := h
  rcases step_eq_some hs with ⟨c, e', u, u', rfl, hu, -, hstep, rfl⟩ |
    ⟨m, c, ts, sd, u, life, rfl, hu, -, -, hnone, -, rfl⟩
  · rcases set_eq_some.mp hw' with ⟨rfl, rfl⟩ | ⟨-, hw⟩
    · have hback := alive_of_step hinv hs halive (hinv.moved hu)
      by_cases he : ∃ io, e' = .monitor io
      · obtain ⟨io, rfl⟩ := he
        rcases (World.turn_of_monitor hstep).1.serving hserving hne with hinit | ⟨hold, hnot⟩
        · exact .inr (.inr ⟨io, w', rfl, hw', hinit⟩)
        · exact .inl ⟨hback, u, hu, hold, hnot⟩
      · have hpoint := (World.step_beside hstep (by simpa using he)).1
        rw [hpoint] at hserving hne
        exact .inl ⟨hback, u, hu, hserving, hne⟩
    · exact .inl ⟨alive_of_step hinv hs halive (hinv.moved hw), w', hw, hserving, hne⟩
  · rcases set_eq_some.mp hw' with ⟨rfl, -⟩ | ⟨-, hw⟩
    · exact .inr (.inl ⟨m, c, ts, sd, rfl, rfl⟩)
    · exact .inl ⟨alive_of_step hinv hs halive (hinv.moved hw), w', hw, hserving, hne⟩

/-- Who is coming after a step was so before, or has just called `ready`. -/
theorem coming_of_step (hinv : t.Inv) (hs : t.step e = some t') (h : t'.Coming a) :
    t.Coming a ∨ ∃ n b, e = .own b (.family (.ready n)) ∧ a = n :: b := by
  obtain ⟨halive, hnone', n, b, w', rfl, hw', hcalled, hnot⟩ := h
  rcases step_eq_some hs with ⟨c, e', u, u', rfl, hu, -, hstep, rfl⟩ |
    ⟨m, c, ts, sd, u, life, rfl, hu, -, -, hnone, -, rfl⟩
  · have hunset : t.monitors (n :: b) = none := by
      by_cases heq : n :: b = c
      · subst heq
        simp [set] at hnone'
      · simpa [set, heq] using hnone'
    have hkept : ∀ w, t.monitors b = some w → (w.family.prog n).called = true →
        (∀ err, w.result n ≠ some (.error err)) → t.Coming (n :: b) := by
      intro w hw hcalled hnot
      refine ⟨alive_of_step hinv hs halive ?_, hunset, n, b, w, rfl, hw, hcalled, hnot⟩
      rintro m d w₁ heq hw₁ hfresh
      obtain ⟨rfl, rfl⟩ := List.cons.inj heq
      obtain rfl : w = w₁ := by simpa [hw] using hw₁
      rw [hfresh] at hcalled
      cases hcalled
    rcases set_eq_some.mp hw' with ⟨rfl, rfl⟩ | ⟨-, hw⟩
    · have hback : ∀ err, u.result n ≠ some (.error err) :=
        fun err herr => hnot err (World.result_step hstep herr)
      rcases World.family_of_step hstep with hsame | ⟨e'', rfl, hF⟩
      · exact .inl (hkept u hu (hsame ▸ hcalled) hback)
      · rcases (Family.called_step hF n).mp hcalled with hold | rfl
        · exact .inl (hkept u hu hold hback)
        · exact .inr ⟨n, b, rfl, rfl⟩
    · exact .inl (hkept w' hw hcalled hnot)
  · have hne : n :: b ≠ m :: c := by
      intro heq
      rw [heq] at hnone'
      simp [set] at hnone'
    rcases set_eq_some.mp hw' with ⟨-, rfl⟩ | ⟨-, hw⟩
    · cases hcalled
    · left
      refine ⟨alive_of_step hinv hs halive ?_, by simpa [set, hne] using hnone', n, b, w', rfl, hw,
        hcalled, hnot⟩
      rintro k d w₁ heq hw₁ hfresh
      obtain ⟨rfl, rfl⟩ := List.cons.inj heq
      obtain rfl : w' = w₁ := by simpa [hw] using hw₁
      rw [hfresh] at hcalled
      cases hcalled

/-- Who takes triggers after a step did so before, or its `monitor` has just come to it. -/
theorem polls_of_step (hinv : t.Inv) (hs : t.step e = some t') (h : t'.polls a = true) :
    t.polls a = true ∨
      ∃ io w', e = .own a (.monitor io) ∧ t'.monitors a = some w' ∧ w'.point = .polling := by
  obtain ⟨halive, w', hw', hpoint⟩ := polls_eq_true h
  have hold : ∀ w, t.monitors a = some w → w.point = .polling → t.polls a = true := by
    intro w hw hp
    have hback := alive_of_step hinv hs halive (hinv.moved hw)
    simp [polls, hback, hw, hp]
  rcases step_eq_some hs with ⟨c, e', u, u', rfl, hu, -, hstep, rfl⟩ |
    ⟨m, c, ts, sd, u, life, rfl, hu, -, -, hnone, -, rfl⟩
  · rcases set_eq_some.mp hw' with ⟨rfl, rfl⟩ | ⟨-, hw⟩
    · by_cases he : ∃ io, e' = .monitor io
      · obtain ⟨io, rfl⟩ := he
        exact .inr ⟨io, w', rfl, hw', hpoint⟩
      · exact .inl (hold u hu ((World.step_beside hstep (by simpa using he)).1 ▸ hpoint))
    · exact .inl (hold w' hw hpoint)
  · rcases set_eq_some.mp hw' with ⟨-, rfl⟩ | ⟨-, hw⟩
    · cases hpoint
    · exact .inl (hold w' hw hpoint)

/-! ## Who is named -/

/-- Whoever is in charge, and whoever is coming, is in the PID file, and whoever takes
triggers has sent the last `READY`. -/
structure Named (t : Lineage) (log : List Naming) : Prop where
  informed : ∀ a w, t.monitors a = some w → w.notifier.isSome = true
  inCharge : ∀ a, t.InCharge a → pidFile log = a
  coming : ∀ a, t.Coming a → pidFile log = a
  polls : ∀ a, t.polls a = true → mainPid log = some a

theorem Named.informed_step {log : List Naming} (h : t.Named log) (hG : t.heeds e = true)
    (hs : t.step e = some t') : ∀ a w, t'.monitors a = some w → w.notifier.isSome = true := by
  intro a w hw
  rcases step_eq_some hs with ⟨c, e', u, u', rfl, hu, -, hstep, rfl⟩ |
    ⟨m, c, ts, sd, u, life, rfl, hu, -, -, -, -, rfl⟩
  · rcases set_eq_some.mp hw with ⟨rfl, rfl⟩ | ⟨-, hw⟩
    · have hold := h.informed _ u hu
      by_cases he : ∃ io, e' = .monitor io
      · obtain ⟨io, rfl⟩ := he
        rw [(World.turn_of_monitor hstep).2]
        exact hold
      · rw [(World.step_beside hstep (by simpa using he)).2.2.1]
        exact hold
    · exact h.informed a w hw
  · rcases set_eq_some.mp hw with ⟨-, rfl⟩ | ⟨-, hw⟩
    · simp only [heeds, Bool.and_eq_true] at hG
      rw [if_pos hG.2]
      rfl
    · exact h.informed a w hw

/-- **Step lemma**: a child calls `ready`.  Nobody is in charge then, and nobody else is
coming. -/
theorem Named.ready {log : List Naming} (h : t.Named log) (hinv : t.Inv) (hseen : t.Seen)
    (hs : t.step (.own b (.family (.ready n))) = some t')
    (hinformed : ∀ a w, t'.monitors a = some w → w.notifier.isSome = true) :
    t'.Named (log ++ [.file (n :: b)]) := by
  have hchild : t.Acts (n :: b) ∧ t.monitors (n :: b) = none ∧ ¬ t.Coming (n :: b) := by
    rcases step_eq_some hs with ⟨c, e', w, w', heq, hw, -, hstep, -⟩ |
      ⟨_, _, _, _, _, _, heq, -⟩
    · cases heq
      obtain ⟨henabled, hF⟩ := World.enabled_of_step hstep
      simp only [World.enabled, decide_eq_true_eq] at henabled
      have hfresh : (w.family.sys.comp n).child.alive = true ∧ w.family.prog n = .fresh := by
        simp only [Family.step] at hF
        split at hF
        · assumption
        · cases hF
      have hnone : t.monitors (n :: b) = none := by
        by_contra hsome
        obtain ⟨v, hv⟩ := Option.ne_none_iff_exists'.mp hsome
        exact hinv.moved hv n b w rfl hw hfresh.2
      refine ⟨.inr ⟨alive_cons_iff.mpr ⟨w, hw, hfresh.1⟩, hnone, n, b, rfl, ⟨w, hw, henabled.1⟩,
        ?_⟩, hnone, ?_⟩
      · rintro ⟨w₁, err, hw₁, herr⟩
        obtain rfl : w = w₁ := by simpa [hw] using hw₁
        exact (hinv.family hw).not_fresh_of_error hfresh.1 herr hfresh.2
      · rintro ⟨-, -, m, c, w₁, heq, hw₁, hcalled, -⟩
        obtain ⟨rfl, rfl⟩ := List.cons.inj heq
        obtain rfl : w = w₁ := by simpa [hw] using hw₁
        rw [hfresh.2] at hcalled
        cases hcalled
    · cases heq
  obtain ⟨hacts, hnone, hnot⟩ := hchild
  have hnobody : ∀ a, ¬ t.InCharge a := by
    intro a ha
    obtain rfl := ha.unique hinv hseen hacts (not_awaits hnone)
    obtain ⟨-, w, hw, -⟩ := ha
    cases hnone.symm.trans hw
  refine ⟨hinformed, fun a ha => ?_, fun a ha => ?_, fun a ha => ?_⟩
  · rcases inCharge_of_step hinv hs ha with hold | ⟨_, _, _, _, heq, -⟩ | ⟨_, _, heq, -⟩
    · exact absurd hold (hnobody a)
    · cases heq
    · cases heq
  · rw [pidFile_file]
    rcases coming_of_step hinv hs ha with hold | ⟨m, c, heq, rfl⟩
    · have heq := acts_unique hinv hseen (hold.acts hinv) hacts hold.2.1 hnone
      exact absurd (heq ▸ hold) hnot
    · cases heq
      rfl
  · rw [mainPid_file]
    rcases polls_of_step hinv hs ha with hold | ⟨_, _, heq, -⟩
    · exact h.polls a hold
    · cases heq

/-- **Step lemma**: a turn of `monitor` of the process `b`. -/
theorem Named.monitor {log : List Naming} {io : Option String} (h : t.Named log) (hinv : t.Inv)
    (hinv' : t'.Inv) (hseen' : t'.Seen) (hs : t.step (.own b (.monitor io)) = some t')
    (hinformed : ∀ a w, t'.monitors a = some w → w.notifier.isSome = true) :
    t'.Named (log ++ t.names (.own b (.monitor io)) t') := by
  have hturn : ∃ w w', t.monitors b = some w ∧ w.step (.monitor io) = some w' ∧
      t.alive b = true ∧ t' = t.set b w' := by
    rcases step_eq_some hs with ⟨c, e', w, w', heq, hw, hpermits, hstep, rfl⟩ |
      ⟨_, _, _, _, _, _, heq, -⟩
    · cases heq
      exact ⟨w, w', hw, hstep, hpermits, rfl⟩
    · cases heq
  obtain ⟨w, w', hw, hstep, halive, rfl⟩ := hturn
  have hw' : (t.set b w').monitors b = some w' := set_eq_some.mpr (.inl ⟨rfl, rfl⟩)
  have halive' : (t.set b w').alive b = true := by
    cases b with
    | nil => rfl
    | cons n c =>
      obtain ⟨u, hu, hlives⟩ := alive_cons_iff.mp halive
      exact alive_cons_iff.mpr ⟨u, set_eq_some.mpr (.inr ⟨by simp, hu⟩), hlives⟩
  have hnames : t.names (.own b (.monitor io)) (t.set b w') =
      (w.entries (.own (.monitor io)) w').filterMap (namings b) := by
    simp [names, hw, hw']
  -- when `b` begins its loop, or comes to its triggers, nobody else is in charge
  have honly : w'.point = .initializing ∨ w'.point = .polling →
      ∀ a, (t.set b w').Acts a → (∀ n, ¬ (t.set b w').Awaits a n) → a = b := by
    intro hpoint a ha hna
    have hb : (t.set b w').InCharge b :=
      ⟨halive', w', hw', by rcases hpoint with hp | hp <;> rw [hp] <;> rfl,
        by rcases hpoint with hp | hp <;> simp [hp]⟩
    exact (hb.unique hinv' hseen' ha hna).symm
  have hcoming : ∀ a, (t.set b w').Coming a → t.Coming a := by
    intro a ha
    rcases coming_of_step hinv hs ha with hold | ⟨_, _, heq, -⟩
    · exact hold
    · cases heq
  have hcharge : ∀ a, (t.set b w').InCharge a → t.InCharge a ∨ w'.point = .initializing := by
    intro a ha
    rcases inCharge_of_step hinv hs ha with hold | ⟨_, _, _, _, heq, -⟩ | ⟨_, v, heq, hv, hp⟩
    · exact .inl hold
    · cases heq
    · cases heq
      obtain rfl : w' = v := by simpa [hw'] using hv
      exact .inr hp
  have hpolls : ∀ a, (t.set b w').polls a = true → t.polls a = true ∨ w'.point = .polling := by
    intro a ha
    rcases polls_of_step hinv hs ha with hold | ⟨_, v, heq, hv, hp⟩
    · exact .inl hold
    · cases heq
      obtain rfl : w' = v := by simpa [hw'] using hv
      exact .inr hp
  rw [hnames]
  rcases (World.turn_of_monitor hstep).1.namings (h.informed b w hw) b with
    ⟨hes, -, hpoint⟩ | ⟨hes, hpoint⟩ | ⟨hes, hpolling, hinit⟩
  all_goals
    have hes : (w.entries (.own (.monitor io)) w').filterMap (namings b) = _ := hes
    rw [hes]
  -- `b` has sent its `READY`
  · refine ⟨hinformed, fun a ha => ?_, fun a ha => ?_, fun a ha => ?_⟩
    · rw [pidFile_main]
      rcases hcharge a ha with hold | hp
      · exact h.inCharge a hold
      · cases hpoint.symm.trans hp
    · rw [pidFile_main]
      exact h.coming a (hcoming a ha)
    · rw [mainPid_main]
      obtain ⟨hserves, hna⟩ := (inCharge_of_polls ha).serves
      rw [honly (.inr hpoint) a (.inl hserves) hna]
  -- an attempt of `b` has failed, and it has written the PID file
  · refine ⟨hinformed, fun a ha => ?_, fun a ha => ?_, fun a ha => ?_⟩
    · obtain ⟨hserves, hna⟩ := ha.serves
      rw [pidFile_file, honly (.inl hpoint) a (.inl hserves) hna]
    · rw [pidFile_file, honly (.inl hpoint) a (ha.acts hinv') (not_awaits ha.2.1)]
    · rw [mainPid_file]
      rcases hpolls a ha with hold | hp
      · exact h.polls a hold
      · cases hpoint.symm.trans hp
  -- nobody is named
  · rw [List.append_nil]
    refine ⟨hinformed, fun a ha => ?_, fun a ha => h.coming a (hcoming a ha), fun a ha => ?_⟩
    · exact h.inCharge a ((hcharge a ha).resolve_right hinit)
    · exact h.polls a ((hpolls a ha).resolve_right hpolling)

/-- **Step lemma**: a child gets its own monitor. -/
theorem Named.start {log : List Naming} {ts : List (Trigger × ExitCondition)} {sd : Bool}
    (h : t.Named log) (hinv : t.Inv) (hs : t.step (.start n b ts sd) = some t')
    (hinformed : ∀ a w, t'.monitors a = some w → w.notifier.isSome = true) :
    t'.Named log := by
  refine ⟨hinformed, fun a ha => ?_, fun a ha => ?_, fun a ha => ?_⟩
  · rcases inCharge_of_step hinv hs ha with hold | ⟨_, _, _, _, heq, rfl⟩ | ⟨_, _, heq, -⟩
    · exact h.inCharge a hold
    · cases heq
      refine h.coming _ ?_
      rcases step_eq_some hs with ⟨_, _, _, _, heq, -⟩ |
        ⟨m, c, ts, sd, w, life, heq, hw, hn, halive, hnone, -, -⟩
      · cases heq
      · cases heq
        have hdead : ∀ err, w.result n = some (.error err) →
            (w.family.sys.comp n).child.alive = false :=
          fun err => World.not_alive_of_error (hinv.family hw) hn
        simp only [World.readied, decide_eq_true_eq] at hn
        refine ⟨halive, hnone, n, b, w, rfl, hw, by rw [hn.2.1]; rfl, fun err herr => ?_⟩
        obtain ⟨w₁, hw₁, hlives⟩ := alive_cons_iff.mp halive
        obtain rfl : w = w₁ := by simpa [hw] using hw₁
        cases hlives.symm.trans (hdead err herr)
    · cases heq
  · rcases coming_of_step hinv hs ha with hold | ⟨_, _, heq, -⟩
    · exact h.coming a hold
    · cases heq
  · rcases polls_of_step hinv hs ha with hold | ⟨_, _, heq, -⟩
    · exact h.polls a hold
    · cases heq

/-- **Step lemma**: all else that processes do. -/
theorem Named.beside {log : List Naming} {e : World.Event} (h : t.Named log) (hinv : t.Inv)
    (hs : t.step (.own b e) = some t') (hmonitor : ∀ io, e ≠ .monitor io)
    (hready : ∀ n, e ≠ .family (.ready n))
    (hinformed : ∀ a w, t'.monitors a = some w → w.notifier.isSome = true) :
    t'.Named log := by
  refine ⟨hinformed, fun a ha => ?_, fun a ha => ?_, fun a ha => ?_⟩
  · rcases inCharge_of_step hinv hs ha with hold | ⟨_, _, _, _, heq, -⟩ | ⟨io, _, heq, -⟩
    · exact h.inCharge a hold
    · cases heq
    · cases heq
      exact absurd rfl (hmonitor io)
  · rcases coming_of_step hinv hs ha with hold | ⟨n, _, heq, -⟩
    · exact h.coming a hold
    · cases heq
      exact absurd rfl (hready n)
  · rcases polls_of_step hinv hs ha with hold | ⟨io, _, heq, -⟩
    · exact h.polls a hold
    · cases heq
      exact absurd rfl (hmonitor io)

theorem Named.step {log : List Naming} (h : t.Named log) (hinv : t.Inv) (hseen : t.Seen)
    (hinv' : t'.Inv) (hseen' : t'.Seen) (hG : t.heeds e = true) (hs : t.step e = some t') :
    t'.Named (log ++ t.names e t') := by
  have hinformed := h.informed_step hG hs
  cases e with
  | start n b ts sd =>
    rw [show t.names (.start n b ts sd) t' = [] from rfl, List.append_nil]
    exact h.start hinv hs hinformed
  | own b e =>
    by_cases hmonitor : ∃ io, e = .monitor io
    · obtain ⟨io, rfl⟩ := hmonitor
      exact h.monitor hinv hinv' hseen' hs hinformed
    · by_cases hready : ∃ n, e = .family (.ready n)
      · obtain ⟨n, rfl⟩ := hready
        exact h.ready hinv hseen hs hinformed
      · push Not at hmonitor hready
        have hnames : t.names (.own b e) t' = [] := by
          unfold names
          split
          · rename_i heq
            cases heq
            exact absurd rfl (hready _)
          · rename_i heq
            cases heq
            exact absurd rfl (hmonitor _)
          · rfl
        rw [hnames, List.append_nil]
        exact h.beside hinv hs hmonitor hready hinformed

/-- The processes whose names are recorded go on as before. -/
theorem reachableVia_of_recording {nt : Option (List Notice)} {r : Lineage × List Naming}
    (hr : ((lineage parent triggers nt).recording names).ReachableVia
      (fun r e => r.1.heeds e = true) r) :
    (lineage parent triggers nt).ReachableVia (fun t e => t.seenFirst e = true) r.1 := by
  refine hr.map Prod.fst (fun r (hinit : _ ∧ _) => hinit.1) fun r e r' _ hG hs =>
    .inr ⟨e, ?_, ?_⟩
  · exact (Bool.and_eq_true_iff.mp hG).1
  · exact (TransitionSystem.recording_step_eq_some.mp hs).1

theorem named_of_reachable {r : Lineage × List Naming}
    (hr : ((lineage parent triggers (some sent)).recording names).ReachableVia
      (fun r e => r.1.heeds e = true) r) : r.1.Named r.2 := by
  refine hr.recorded (I := Named) ?_ fun t log e t' hr h hG hs => ?_
  · rintro t ⟨-, -, rfl⟩
    have hroot : ∀ a w, (init (.init parent triggers (some sent))).monitors a = some w →
        a = [] ∧ w = .init parent triggers (some sent) := by
      intro a w hw
      simp only [init] at hw
      split at hw
      · exact ⟨by assumption, by cases hw; rfl⟩
      · cases hw
    refine ⟨fun a w hw => ?_, fun a ha => ?_, fun a ha => ?_, fun a ha => ?_⟩
    · rw [(hroot a w hw).2]
      rfl
    · obtain ⟨-, w, hw, -⟩ := ha
      rw [(hroot a w hw).1]
      rfl
    · obtain ⟨-, -, n, b, w, -, hw, hcalled, -⟩ := ha
      rw [(hroot b w hw).2] at hcalled
      cases hcalled
    · obtain ⟨-, w, hw, hpoint⟩ := polls_eq_true ha
      rw [(hroot a w hw).2] at hpoint
      cases hpoint
  · have hvia := reachableVia_of_recording hr
    have hvia' := hvia.step (Bool.and_eq_true_iff.mp hG).1 hs
    exact h.step (inv_of_reachable hvia) (seen_of_reachable hvia) (inv_of_reachable hvia')
      (seen_of_reachable hvia') hG hs

end Lineage

open Lineage in
/-- **Both names agree with who is in charge**, over any number of generations, failed
attempts and crashes: the process that serves and waits for no attempt is in the PID file, and
so is the child that has called `ready` and has no monitor yet; and when a process takes
triggers, it is the `MAINPID` of the last `READY` too. -/
theorem service_named {r : Lineage × List Naming} {parent : Proc}
    {triggers : List (Trigger × ExitCondition)} {sent : List Notice}
    (hr : ((lineage parent triggers (some sent)).recording names).ReachableVia
      (fun r e => r.1.heeds e = true) r) :
    (∀ a, r.1.InCharge a ∨ r.1.Coming a → pidFile r.2 = a) ∧
    ∀ a, r.1.polls a = true → pidFile r.2 = a ∧ mainPid r.2 = some a := by
  have h := named_of_reachable hr
  refine ⟨?_, fun a ha => ⟨h.inCharge a (inCharge_of_polls ha), h.polls a ha⟩⟩
  rintro a (hcharge | hcoming)
  · exact h.inCharge a hcharge
  · exact h.coming a hcoming

/-- The child takes triggers, with notices to systemd enabled, while its parent has yet to
look at it. -/
def besideInformed : List Lineage.Event :=
  untilReady.map (.own []) ++ [.start 0 [] twoSignals true, .own [0] (.monitor none)]

theorem service_named_beside :
    ∃ r, ((lineage listeningProc twoSignals (some [])).recording Lineage.names).Reachable r ∧
      pidFile r.2 = [0] ∧ mainPid r.2 = some [0] := by
  obtain ⟨r, hrun, hp⟩ := Option.map_eq_some_iff.mp (show
    (((lineage listeningProc twoSignals (some [])).recording Lineage.names).runVia
      (fun r => r.1.heeds) (.init (.init listeningProc twoSignals (some [])), [])
      besideInformed).map (fun r => r.1.polls [0]) = some true by decide +kernel)
  have hr := TransitionSystem.reachableVia_of_runVia
    (M := (lineage listeningProc twoSignals (some [])).recording Lineage.names)
    (.init ⟨⟨wf_listeningProc, rfl, rfl⟩, rfl⟩) hrun
  exact ⟨r, hr.reachable, (service_named hr).2 [0] hp⟩

end Upgrader
