/-
# The PID file

`Ecdysis::upgrade` and `Ecdysis::ready` (`lib.rs`) on top of the upgrade procedure: any
number of threads of the parent call `Ecdysis::upgrade`; the child of a call may call
`ready`, which writes the PID file, then `OK` to the ready pipe, and closes the pipe; a
call whose upgrade fails rewrites the PID file with the parent's pid before it returns,
also when it was merely refused.  A write of the file is one atomic step.

`pid_file_names_survivor` : when all calls have returned, the file names the live child
of a successful call, or the parent if all failed, in every run in which nobody rewrites
the file while a live child whose call has not failed is named in it (`Undisturbed`).
Without that restriction the file may name the parent after a successful upgrade
(`refused_call_takes_pid_file`).
-/
import Ecdysis.ChildProgram

open Executioner

namespace PidFile

/-! ## The parent and its children -/

/-- All calls with their children, the content of the PID file, and what the calls of
`Ecdysis::upgrade` have returned. -/
structure World where
  family : Family
  pidFile : ℕ
  finished : ℕ → Option UpgradeFinished

/-- What can happen: something in the family, or call `c` returns. -/
inductive Event
  | family (e : Family.Event)
  | finish (c : ℕ)

section

variable (parent : ℕ) (pid : ℕ → ℕ)

/-- What an event of the family does to the file: `ready` begins by writing it. -/
def fileAfter (file : ℕ) : Family.Event → ℕ
  | .ready c => pid c
  | _ => file

/-- What the return of a call does to the file: an error rewrites it. -/
def fileAtReturn (file : ℕ) : UpgradeFinished → ℕ
  | .ok () => file
  | .error _ => parent

/-- One step; `parent` is the pid of the parent, `pid c` that of the child of call `c`. -/
def World.step (w : World) : Event → Option World
  | .family e =>
    (w.family.step e).map fun F => { w with family := F, pidFile := fileAfter pid w.pidFile e }
  | .finish c =>
    match (w.family.sys.comp c).main.result, w.finished c with
    | some res, none =>
      some { w with
        finished := Function.update w.finished c (some res)
        pidFile := fileAtReturn parent w.pidFile res }
    | _, _ => none

/-- The start: no call has been made, and the file names the parent. -/
def World.init : World := ⟨.init, parent, fun _ => none⟩

/-- All interleavings. -/
def world : TransitionSystem World Event where
  Init := fun w => w = World.init parent
  step := World.step parent pid

end

/-- The live child of a call that has not failed has written the file. -/
def World.Holder (w : World) (c : ℕ) : Prop :=
  (w.family.sys.comp c).child.alive = true ∧ (w.family.prog c).called = true ∧
    ∀ e, w.finished c ≠ some (.error e)

/-- Nobody rewrites the file while another call has a live child that has written it and
the call has not failed: no other child calls `ready`, and no other call returns an
error. -/
def Undisturbed (w : World) : Event → Prop
  | .family (.ready c) => ∀ d, d ≠ c → ¬ w.Holder d
  | .finish c => (∃ e, (w.family.sys.comp c).main.result = some (.error e)) →
      ∀ d, d ≠ c → ¬ w.Holder d
  | _ => True

variable {parent : ℕ} {pid : ℕ → ℕ} {w w' : World} {e : Event} {c : ℕ}

/-- What each event does. -/
theorem step_eq_some (h : w.step parent pid e = some w') :
    (∃ e' F, e = .family e' ∧ w.family.step e' = some F ∧
      w' = { w with family := F, pidFile := fileAfter pid w.pidFile e' }) ∨
    (∃ c res, e = .finish c ∧ (w.family.sys.comp c).main.result = some res ∧
      w.finished c = none ∧
      w' = { w with
        finished := Function.update w.finished c (some res)
        pidFile := fileAtReturn parent w.pidFile res }) := by
  cases e with
  | family e' =>
    obtain ⟨F, hF, rfl⟩ := Option.map_eq_some_iff.mp h
    exact .inl ⟨e', F, rfl, hF, rfl⟩
  | finish c =>
    simp only [World.step] at h
    split at h
    · rename_i res hres hnone
      cases h
      exact .inr ⟨c, res, rfl, hres, hnone, rfl⟩
    · cases h

/-! ## What the file says -/

/-- **The invariant.**  The file names every live child that has written it and whose call
has not failed; and it names the parent, unless it names the child of a call that has
not failed. -/
structure World.Inv (parent : ℕ) (pid : ℕ → ℕ) (w : World) : Prop where
  sound : w.family.Sound
  result : ∀ c res, w.finished c = some res → (w.family.sys.comp c).main.result = some res
  names : ∀ c, w.Holder c → w.pidFile = pid c
  writer : w.pidFile = parent ∨
    ∃ c, (w.family.prog c).called = true ∧ w.pidFile = pid c ∧
      ∀ e, w.finished c ≠ some (.error e)

/-- A step of the family other than a call of `ready` leaves the file alone and makes no
new holder. -/
theorem World.Inv.family (hI : w.Inv parent pid) {e' : Family.Event} {F : Family}
    (h : w.family.step e' = some F) (hready : ∀ c, e' ≠ .ready c) :
    World.Inv parent pid { w with family := F } := by
  obtain ⟨hsound, halive⟩ := hI.sound.step h
  have hcalled : ∀ c, (F.prog c).called = true ↔ (w.family.prog c).called = true := fun c => by
    rw [Family.called_step h c, or_iff_left (hready c)]
  refine ⟨hsound, fun c res hres => Family.result_step h (hI.result c res hres), fun c hc => ?_, ?_⟩
  · obtain ⟨hal, hca, hne⟩ := hc
    rw [hcalled c] at hca
    refine hI.names c ⟨halive c (fun hfresh => ?_) hal, hca, hne⟩
    rw [hfresh] at hca
    cases hca
  · refine hI.writer.imp_right ?_
    rintro ⟨c, hca, hpid, hne⟩
    exact ⟨c, (hcalled c).mpr hca, hpid, hne⟩

/-- A child calls `ready`: there is no other holder. -/
theorem World.Inv.ready (hI : w.Inv parent pid) {F : Family}
    (hG : ∀ d, d ≠ c → ¬ w.Holder d) (h : w.family.step (.ready c) = some F) :
    World.Inv parent pid { w with family := F, pidFile := pid c } := by
  obtain ⟨hsound, halive⟩ := hI.sound.step h
  have hstart : (w.family.sys.comp c).child.alive = true ∧ w.family.prog c = .fresh := by
    simp only [Family.step] at h
    split at h
    · rename_i hc
      exact hc
    · cases h
  -- a call fails under a live child only when the child has dealt with its pipe
  have hne : ∀ err, w.finished c ≠ some (.error err) := fun err herr =>
    hI.sound.not_fresh_of_error hstart.1 (hI.result c _ herr) hstart.2
  refine ⟨hsound, fun d res hres => Family.result_step h (hI.result d res hres), fun d hd => ?_,
    .inr ⟨c, (Family.called_step h c).mpr (.inr rfl), rfl, hne⟩⟩
  by_cases hdc : d = c
  · rw [hdc]
  · obtain ⟨hal, hca, hnot⟩ := hd
    have hca' : (w.family.prog d).called = true := by
      rcases (Family.called_step h d).mp hca with hca | heq
      · exact hca
      · cases heq
        exact absurd rfl hdc
    refine absurd ⟨halive d (fun hfresh => ?_) hal, hca', hnot⟩ (hG d hdc)
    rw [hfresh] at hca'
    cases hca'

/-- A call returns: if it has failed, there is no other holder. -/
theorem World.Inv.finish (hI : w.Inv parent pid) {res : UpgradeFinished}
    (hG : (∃ e, res = .error e) → ∀ d, d ≠ c → ¬ w.Holder d)
    (hres : (w.family.sys.comp c).main.result = some res) (hnone : w.finished c = none) :
    World.Inv parent pid { w with
      finished := Function.update w.finished c (some res)
      pidFile := fileAtReturn parent w.pidFile res } := by
  have hresult : ∀ d res', Function.update w.finished c (some res) d = some res' →
      (w.family.sys.comp d).main.result = some res' := by
    intro d res' hres'
    by_cases hdc : d = c
    · subst hdc
      rw [Function.update_self] at hres'
      cases hres'
      exact hres
    · rw [Function.update_of_ne hdc] at hres'
      exact hI.result d res' hres'
  rcases res with err | ⟨⟩
  -- an error: the file names the parent again, and the call's own child holds no longer
  · refine ⟨hI.sound, hresult, fun d hd => ?_, .inl rfl⟩
    obtain ⟨hal, hca, hne⟩ := hd
    by_cases hdc : d = c
    · subst hdc
      simp only [Function.update_self] at hne
      exact absurd rfl (hne err)
    · simp only [Function.update_of_ne hdc] at hne
      exact absurd ⟨hal, hca, hne⟩ (hG ⟨err, rfl⟩ d hdc)
  · have hfinished : ∀ d e, Function.update w.finished c (some (.ok ())) d = some (.error e) ↔
        w.finished d = some (.error e) := by
      intro d e
      by_cases hdc : d = c
      · subst hdc
        simp [hnone]
      · rw [Function.update_of_ne hdc]
    refine ⟨hI.sound, hresult, fun d hd => ?_, ?_⟩
    · exact hI.names d ⟨hd.1, hd.2.1, fun e he => hd.2.2 e ((hfinished d e).mpr he)⟩
    · refine hI.writer.imp_right ?_
      rintro ⟨d, hca, hpid, hne⟩
      exact ⟨d, hca, hpid, fun e he => hne e ((hfinished d e).mp he)⟩

/-- The invariant holds in every undisturbed run. -/
theorem inv_of_reachable (hr : (world parent pid).ReachableVia Undisturbed w) :
    w.Inv parent pid := by
  refine hr.invariant ?_ ?_
  · rintro w rfl
    refine ⟨Family.sound_init, fun _ _ hf => (nomatch hf), ?_, .inl rfl⟩
    rintro c ⟨hal, -, -⟩
    cases hal
  · intro w e w' _ hI hG h
    rcases step_eq_some h with ⟨e', F, rfl, hF, rfl⟩ | ⟨c, res, rfl, hres, hnone, rfl⟩
    · cases e' with
      | ready c => exact hI.ready hG hF
      | _ => exact hI.family hF (by simp)
    · exact hI.finish (fun ⟨err, herr⟩ => hG ⟨err, herr ▸ hres⟩) hres hnone

/-- **The PID file names the survivor**: when all calls that were made have returned, it
contains the pid of the child of any call that returned `Ok(())`, if that child is
still running, and the parent's pid if all calls returned an error. -/
theorem pid_file_names_survivor (hr : (world parent pid).ReachableVia Undisturbed w)
    (hall : ∀ c, (w.family.sys.comp c).main ≠ .start → (w.finished c).isSome) :
    (∀ c, w.finished c = some (.ok ()) → (w.family.sys.comp c).child.alive = true →
      w.pidFile = pid c) ∧
    ((∀ c, w.finished c ≠ some (.ok ())) → w.pidFile = parent) := by
  have hI := inv_of_reachable hr
  refine ⟨fun c hok halive => ?_, fun herr => ?_⟩
  · refine hI.names c ⟨halive, hI.sound.called_of_ok (hI.result c _ hok), ?_⟩
    rw [hok]
    exact fun _ hf => nomatch hf
  · rcases hI.writer with hparent | ⟨c, hcalled, -, hne⟩
    · exact hparent
    -- the call whose child wrote the file was made, so it has returned, with neither result
    · have hfresh : w.family.prog c ≠ .fresh := by
        intro hf
        rw [hf] at hcalled
        cases hcalled
      have hmain : (w.family.sys.comp c).main ≠ .start := by
        intro hstart
        have hm := (coherent_of_reachable hI.sound.sys c).main
        unfold Call.MainFacts at hm
        rw [hstart] at hm
        exact (hI.sound.facts c).born hfresh hm.2.2
      obtain ⟨res, hres⟩ := Option.isSome_iff_exists.mp (hall c hmain)
      rcases res with e | ⟨⟩
      · exact absurd hres (hne e)
      · exact absurd hres (herr c)

/-! ## Runs of few calls -/

/-- The event is of one of the first `n` calls, or time passes. -/
def Event.within (n : ℕ) : Event → Bool
  | .family (.thread (.act c _)) => c < n
  | .family (.thread (.env _)) => true
  | .family (.ready c) | .family (.notify c) | .family (.close c) | .family (.exit c)
  | .finish c => c < n

/-- In a run of the first `n` calls the others have not been made. -/
theorem init_of_within {n d : ℕ}
    (hr : (world parent pid).ReachableVia (fun _ e => e.within n = true) w) (hd : n ≤ d) :
    w.family.sys.comp d = Call.init := by
  refine hr.invariant (I := fun w => w.family.sys.comp d = Call.init) ?_ ?_
  · rintro w rfl
    rfl
  · intro w e w' _ hI hG h
    have hother : ∀ c a s, c < n → system.step w.family.sys (.act c a) = some s →
        s.comp d = Call.init := by
      intro c a s hc hs
      obtain ⟨g', k', -, rfl⟩ := Interleaving.step_act_eq_some.mp hs
      have hne : d ≠ c := by omega
      exact (Function.update_of_ne hne k' w.family.sys.comp).trans hI
    rcases step_eq_some h with ⟨e', F, rfl, hF, rfl⟩ | ⟨c, res, -, -, -, rfl⟩
    · rcases Family.step_eq_some hF with ⟨e'', s, rfl, -, hs, rfl⟩ | ⟨c, -, -, -, rfl⟩ |
        ⟨c, a, s, p, hs, rfl, hcases⟩
      · cases e'' with
        | act c a => exact hother c a s (of_decide_eq_true hG) hs
        | env ms =>
          rcases step_cases hs with ⟨c, a, g', k', heq, -⟩ | ⟨ms', -, rfl⟩
          · cases heq
          · exact hI
      · exact hI
      · have hc : c < n := by
          rcases hcases with ⟨b, rest, rfl, _⟩ | ⟨rfl, _⟩ | ⟨rest, rfl, _⟩ | ⟨rfl, _⟩ <;>
            exact of_decide_eq_true hG
        exact hother c (.child a) s hc hs
    · exact hI

/-- A single call is not disturbed. -/
theorem undisturbed_of_within
    (hr : (world parent pid).ReachableVia (fun _ e => e.within 1 = true) w) :
    (world parent pid).ReachableVia Undisturbed w := by
  refine hr.map id (fun _ h => h) fun w e w' hw hG h => .inr ⟨e, ?_, h⟩
  have hnone : ∀ d, d ≠ 0 → ¬ w.Holder d := by
    rintro d hd ⟨halive, -, -⟩
    rw [init_of_within hw (by omega)] at halive
    cases halive
  cases e with
  | finish c =>
    obtain rfl : c = 0 := Nat.lt_one_iff.mp (of_decide_eq_true hG)
    exact fun _ => hnone
  | family e' =>
    cases e' with
    | ready c =>
      obtain rfl : c = 0 := Nat.lt_one_iff.mp (of_decide_eq_true hG)
      exact hnone
    | _ => trivial

/-- The threads of an upgrade, as events of the world. -/
def threads (es : List Executioner.Event) : List Event := es.map fun e => .family (.thread e)

/-- The child of call 0 calls `ready`; between its write of the PID file and its `OK`
the events `es` happen. -/
def readyAround (es : List Event) : List Event :=
  [.family (.ready 0)] ++ es ++
    ([.family (.notify 0), .family (.notify 0), .family (.close 0)] : List Event)

/-- `wait_ready` reads `OK` and the call goes on to return. -/
def accept : List Event :=
  threads ([.act 0 .waitReady, .act 0 .waitReady] ++ clearFlag 0 ++ wakeAndReturn 0) ++
    ([.finish 0] : List Event)

/-- One call, whose child calls `ready`. -/
def acceptedWorld : List Event := threads (launch 0) ++ readyAround [] ++ accept

/-- After one successful call the file names the child. -/
theorem pid_file_names_survivor_accepted :
    ∃ w, (world 100 (200 + ·)).run (World.init 100) acceptedWorld = some w ∧
      w.finished 0 = some (.ok ()) ∧ w.pidFile = 200 := by
  obtain ⟨w, hw, hp⟩ := TransitionSystem.exists_run (world 100 (200 + ·))
    (World.init 100) acceptedWorld (fun w =>
      w.finished 0 = some (.ok ()) ∧ (w.family.sys.comp 0).child = .running) (by decide +kernel)
  obtain ⟨hok, hchild⟩ := of_decide_eq_true hp
  have hwithin := TransitionSystem.reachableVia_of_run (M := world 100 (200 + ·))
    (G := fun _ e => e.within 1 = true) (.init rfl) (fun e he _ => by
      have hall : acceptedWorld.all (Event.within 1) = true := by decide
      exact List.all_eq_true.mp hall e he) hw
  have hall : ∀ c, (w.family.sys.comp c).main ≠ .start → (w.finished c).isSome := by
    intro c hc
    rcases Nat.eq_zero_or_pos c with rfl | hpos
    · rw [hok]
      rfl
    · rw [init_of_within hwithin hpos] at hc
      exact absurd rfl hc
  exact ⟨w, hw, hok, (pid_file_names_survivor (undisturbed_of_within hwithin) hall).1 0 hok
    (by rw [hchild]; rfl)⟩

/-- Call 1 is refused while the upgrade of call 0 is under way, and returns its error,
rewriting the PID file, just after the child of call 0 has written it. -/
def disturbedWorld : List Event :=
  threads (launch 0) ++ threads [.act 1 .main] ++ readyAround [.finish 1] ++ accept

/-- A refused call can leave the parent's pid in the file after a successful upgrade. -/
theorem refused_call_takes_pid_file :
    ¬ ∀ (parent : ℕ) (pid : ℕ → ℕ) (w : World), (world parent pid).Reachable w →
        (∀ c, (w.family.sys.comp c).main ≠ .start → (w.finished c).isSome) →
        (∀ c, w.finished c = some (.ok ()) → (w.family.sys.comp c).child.alive = true →
          w.pidFile = pid c) ∧
        ((∀ c, w.finished c ≠ some (.ok ())) → w.pidFile = parent) := by
  intro h
  obtain ⟨w, hw, hp⟩ := TransitionSystem.exists_run (world 100 (200 + ·))
    (World.init 100) disturbedWorld (fun w =>
      w.finished 0 = some (.ok ()) ∧ (w.family.sys.comp 0).child = .running ∧
      (w.finished 1).isSome = true ∧ w.pidFile = 100) (by decide +kernel)
  obtain ⟨hok, hchild, hrefused, hfile⟩ := of_decide_eq_true hp
  have hwithin := TransitionSystem.reachableVia_of_run (M := world 100 (200 + ·))
    (G := fun _ e => e.within 2 = true) (.init rfl) (fun e he _ => by
      have hall : disturbedWorld.all (Event.within 2) = true := by decide
      exact List.all_eq_true.mp hall e he) hw
  have hall : ∀ c, (w.family.sys.comp c).main ≠ .start → (w.finished c).isSome := by
    intro c hc
    rcases c with _ | _ | c
    · rw [hok]
      rfl
    · exact hrefused
    · rw [init_of_within hwithin (by omega)] at hc
      exact absurd rfl hc
  have hnames := (h 100 (200 + ·) w hwithin.reachable hall).1 0 hok (by rw [hchild]; rfl)
  rw [hfile] at hnames
  cases hnames

end PidFile
