/-
# What systemd sees

systemd is told by the parent's monitor and by the children's, and goes by the last
`READY`.  Two facts about the chronicle:

* `announced_of_reachable` : what the parent's monitor tells it is a word of the form
  `READY (RELOADING READY)* [RELOADING] [STOPPING]`, or the beginning of one.
* `World.mute_of_error` : the child of an attempt that has failed has nothing to say: it is
  dead, or it has given up its builder without its `ready` having written `OK`.

So whenever the parent polls its triggers, its own `READY` is the last datagram of all
(`systemd_follows_survivor`).
-/
import Ecdysis.Shutdown

open Executioner

namespace Upgrader

/-! ## The notices of the monitor -/

/-- The notices `monitor` has sent. -/
def announcements (log : List Entry) : List Notice :=
  log.filterMap fun
    | .notice n none => some n
    | _ => none

@[simp] theorem announcements_append (log es : List Entry) :
    announcements (log ++ es) = announcements log ++ announcements es := List.filterMap_append

theorem announcements_report {w : World} (n : Notice) (h : w.notifier.isSome = true) :
    announcements (w.report n none) = [n] := by
  simp [World.report, h, announcements]

/-- `READY (RELOADING READY)^k [RELOADING] [STOPPING]`. -/
def word (k : ℕ) (reloading stopping : Bool) : List Notice :=
  .ready :: (List.replicate k [.reloading, .ready]).flatten ++
    (if reloading then [.reloading] else []) ++ if stopping then [.stopping] else []

/-- `(READY RELOADING)^k`. -/
def rounds (k : ℕ) : List Notice := (List.replicate k [.ready, .reloading]).flatten

theorem rounds_succ (k : ℕ) : rounds (k + 1) = rounds k ++ [.ready, .reloading] := by
  simp [rounds, List.replicate_succ']

theorem rounds_append_ready (k : ℕ) : rounds k ++ [.ready] = word k false false := by
  induction k with
  | zero => rfl
  | succ k ih =>
    have hword : word (k + 1) false false = word k false false ++ [.reloading, .ready] := by
      simp [word, List.replicate_succ']
    rw [hword, ← ih, rounds_succ]
    simp

theorem rounds_succ_eq_word (k : ℕ) : rounds (k + 1) = word k true false := by
  rw [rounds_succ, List.append_cons, rounds_append_ready]
  simp [word]

/-- What `monitor` has told systemd, by its position. -/
def Announced (p : Point) (ns : List Notice) : Prop :=
  match p with
  | .initializing => ∃ k, ns = rounds k
  | .polling | .reloading _ => ∃ k, ns = word k false false
  | .snapshot _ | .awaiting _ _ => ∃ k, ns = word k true false
  | .returned _ => ∃ k reloading stopping, ns <+: word k reloading stopping
  | _ => ∃ k reloading, ns = word k reloading false

/-- **Step lemma**: the turns of the monitor. -/
theorem Announced.turn {w : World} {p' : Point} {srcs : List (ExitReason × ExitCondition)}
    {log es : List Entry} (h : Announced w.point (announcements log)) (hT : w.Turn p' srcs es)
    (hsome : w.notifier.isSome = true) : Announced p' (announcements (log ++ es)) := by
  rw [announcements_append]
  cases hT with
  | ready hp =>
    rw [hp] at h
    obtain ⟨k, hk⟩ := h
    rw [announcements_report _ hsome, hk]
    exact ⟨k, rounds_append_ready k⟩
  | unready hp =>
    rw [hp] at h
    obtain ⟨k, hk⟩ := h
    refine ⟨k, false, false, ?_⟩
    rw [hk, ← rounds_append_ready]
    exact List.prefix_append_right_inj _ |>.mpr (List.nil_prefix)
  | reloading hp =>
    rw [hp] at h
    obtain ⟨k, hk⟩ := h
    rw [announcements_report _ hsome, hk]
    exact ⟨k, by simp [word]⟩
  | retry hp =>
    rw [hp] at h
    obtain ⟨k, hk⟩ := h
    refine ⟨k + 1, ?_⟩
    rw [hk, rounds_succ_eq_word]
    exact List.append_nil _
  | @stopping ending hp =>
    rw [hp] at h
    obtain ⟨k, reloading, hk⟩ := h
    rw [announcements_report _ hsome, hk]
    exact ⟨k, reloading, true, by simp [word]⟩
  | removeFailed hp | partialDone hp | upgraded hp | unstopping hp =>
    rw [hp] at h
    obtain ⟨k, reloading, hk⟩ := h
    exact ⟨k, reloading, false, by rw [hk]; simp [announcements]⟩
  | upgrade hp | snapshot hp =>
    rw [hp] at h
    obtain ⟨k, hk⟩ := h
    exact ⟨k, by rw [hk]; simp [announcements]⟩
  | stop hp | pollFailed hp | unreloading hp =>
    rw [hp] at h
    obtain ⟨k, hk⟩ := h
    exact ⟨k, false, by rw [hk]; simp [announcements]⟩
  | accept hp | lost hp =>
    rw [hp] at h
    obtain ⟨k, hk⟩ := h
    exact ⟨k, true, by rw [hk]; simp [announcements]⟩
  | closeUsed hp | stopped hp | partiallyStopped hp | skip hp | remove hp | cleaned hp =>
    rw [hp] at h
    obtain ⟨k, reloading, hk⟩ := h
    exact ⟨k, reloading, by rw [hk]; simp [announcements]⟩

section

variable {parent : Proc} {triggers : List (Trigger × ExitCondition)} {sent : List Notice}
  {G : World × List Entry → Happening → Prop} {w w' : World} {log : List Entry}

/-- Results stay what they are. -/
theorem World.result_step {e : World.Event} {n : ℕ} {res : UpgradeFinished}
    (h : w.step e = some w') (hres : w.result n = some res) : w'.result n = some res := by
  cases e with
  | monitor io =>
    rcases monitor_eq_some h with ⟨_, _, _, _, rfl⟩ | ⟨_, _, _, rfl⟩ | ⟨_, _, _, rfl⟩ |
      ⟨_, _, rfl⟩ <;> exact hres
  | family e =>
    simp only [World.step] at h
    split at h
    · obtain ⟨F, hF, rfl⟩ := Option.map_eq_some_iff.mp h
      exact Family.result_step hF hres
    · cases h
  | arrive i a | returns i =>
    cases h
    exact hres
  | kid n e | listen r =>
    simp only [World.step] at h
    split at h
    · obtain ⟨_, -, rfl⟩ := Option.map_eq_some_iff.mp h
      exact hres
    · cases h
  | openFd fd d | closeFd fd =>
    simp only [World.step] at h
    split at h
    · cases h
      exact hres
    · cases h

/-- Only taking the list for it starts an attempt. -/
theorem World.attempts_monitor {io : Option String} (h : w.monitor io = some w') :
    w'.attempts = w.attempts ∨
      ∃ reason, w.point = .snapshot reason ∧ w'.attempts = w.attempts + 1 := by
  rcases monitor_eq_some h with ⟨_, _, _, _, rfl⟩ | ⟨_, _, _, rfl⟩ | ⟨_, _, _, rfl⟩ |
    ⟨reason, hpoint, rfl⟩
  · exact .inl rfl
  · exact .inl rfl
  · exact .inl rfl
  · exact .inr ⟨reason, hpoint, rfl⟩

/-- In its loop, `monitor` has seen all attempts fail but the one it awaits. -/
def World.Rejected (w : World) : Prop :=
  w.point.serving = true → ∀ n < w.attempts,
    (∃ reason, w.point = .awaiting n reason) ∨ ∃ e, w.result n = some (.error e)

/-- **Step lemma**: the turns of the monitor. -/
theorem World.Rejected.turn {io : Option String} {srcs : List (ExitReason × ExitCondition)}
    {es : List Entry} (h : w.Rejected) (hmonitor : w.monitor io = some w')
    (hT : w.Turn w'.point srcs es) : w'.Rejected := by
  intro hserving n hn
  have hkeep : ∀ e, w.result n = some (.error e) → ∃ e, w'.result n = some (.error e) :=
    fun e he => ⟨e, result_step (e := .monitor io) hmonitor he⟩
  have hattempts := attempts_monitor hmonitor
  generalize w'.point = p' at hT hserving ⊢
  cases hT with
  | ready hp | upgrade hp | reloading hp =>
    have hn' : n < w.attempts := by
      rcases hattempts with heq | ⟨reason, hpoint, -⟩
      · exact heq ▸ hn
      · cases hp.symm.trans hpoint
    rcases h (by rw [hp]; rfl) n hn' with ⟨reason, hpoint⟩ | ⟨e, he⟩
    · cases hp.symm.trans hpoint
    · exact .inr (hkeep e he)
  | @retry m reason err hp hres =>
    have hn' : n < w.attempts := by
      rcases hattempts with heq | ⟨reason, hpoint, -⟩
      · exact heq ▸ hn
      · cases hp.symm.trans hpoint
    rcases h (by rw [hp]; rfl) n hn' with ⟨reason', hpoint⟩ | ⟨e, he⟩
    · cases hp.symm.trans hpoint
      exact .inr (hkeep err hres)
    · exact .inr (hkeep e he)
  | @snapshot reason hp =>
    have hn' : n < w.attempts + 1 := by
      rcases hattempts with heq | ⟨reason, -, heq⟩ <;> omega
    rcases Nat.lt_succ_iff_lt_or_eq.mp hn' with hlt | rfl
    · rcases h (by rw [hp]; rfl) n hlt with ⟨reason', hpoint⟩ | ⟨e, he⟩
      · cases hp.symm.trans hpoint
      · exact .inr (hkeep e he)
    · exact .inl ⟨reason, rfl⟩
  | _ => cases hserving

/-- **The child of a failed attempt is mute**: if it lives, it has neither its builder any
more nor a monitor. -/
theorem World.mute_of_error {c : ℕ} {err : UpgradeError} {m : Message} (hF : w.family.Sound)
    (herr : w.result c = some (.error err)) : w.speaks c m = false := by
  by_contra hspeaks
  have hspeaks : w.speaks c m = true := by simpa using hspeaks
  obtain ⟨-, halive, ⟨hfresh, -⟩ | ⟨-, hwritten⟩⟩ := of_decide_eq_true hspeaks
  · exact hF.not_fresh_of_error halive herr hfresh
  · -- two bytes that are not `OK` were read, or the pipe ended before there were two
    have hlength := congrArg List.length hwritten
    rcases pipe_of_error_alive hF.sys herr halive with ⟨hlen, hne⟩ | ⟨hlen, hend⟩
    · refine hne ?_
      have htake : (w.family.sys.comp c).written.take 2 = delivered (w.family.sys.comp c).log := by
        rw [Call.written, ← hlen, List.take_left]
      rw [← htake, hwritten]
      rfl
    · rw [Call.written, hend, List.append_nil] at hlength
      rw [hlength] at hlen
      exact absurd hlen (by decide)

/-! ## The last word -/

/-- All datagrams systemd gets, in order, with their senders. -/
def datagrams (log : List Entry) : List (Process × Message) :=
  log.filterMap fun
    | .notice n none => some (.parent, .notice n)
    | .heard c m => some (.child c, m)
    | _ => none

/-- The `MAINPID`s systemd gets, in order. -/
def mainpids (log : List Entry) : List Process :=
  (datagrams log).filterMap fun d => d.2.mainpid d.1

end

end Upgrader
