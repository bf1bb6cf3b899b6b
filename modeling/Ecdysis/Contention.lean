/-
# Many threads at one registry

The methods of `Ecdysis` that make listeners take `&self`, so any number of threads may call
them at once.  `take` and `add` each hold the lock of one list from beginning to end and are
one step each.  Between `take`, which removes an inherited entry, and `add`, which enters its
duplicate, and between a `take` that finds nothing and the `add` of a new socket, other calls
go on.

* `Call.next` : the steps of a call after `take`; a call that nobody interrupts does what
  `Proc.listen` does (`run_alone`).
* `calls_take_effect_at_once` : with calls interleaved in any way, each takes effect at one
  moment between its beginning and its end, as a request of a ledger that serves one request
  after the other; what calls have taken and not yet entered again is all that is missing
  from the entries in use, whose order may differ.
* `inherited_once` : so the calls for a key are handed the inherited sockets of that key in
  order, each to one call.
-/
import Ecdysis.Custody

open FirstMatch

namespace Contention

/-! ## Calls -/

/-- Where a call stands after `take`.  `file` is what the number it returns refers to. -/
inductive Stage
  | took (fd : RawFd)
  | missed
  | made (fd : RawFd) (info : SockInfo)
  | ended (res : Listened) (file : Option ℕ)

/-- A call of one of the methods. -/
structure Call where
  request : Request
  stage : Stage

/-- What `take` has returned. -/
def Stage.ofTake : Option RawFd → Stage
  | some fd => .took fd
  | none => .missed

/-- The next step of a call: `add` for the number taken, the making of a new socket, `add` for
the new socket. -/
def Call.next (c : Call) (p : Proc) : Option (Stage × Proc) :=
  match c.stage with
  | .took fd => some <|
    match p.add ⟨fd, c.request.key⟩ with
    | .ok q =>
      if c.request.adopt then (.ended (.ok (.inherited, fd)) (q.fileOf fd), q)
      else (.ended (.error .adopt) none, q.closeFdQuiet fd)
    -- `inherit` answers `None`, and the number stays open
    | .error _ => (.missed, p)
  | .missed =>
    match c.request.creation with
    | .failed msg => some (.ended (.error (.create msg)) none, p)
    | .created fd file info =>
      if p.table fd = none then some (.made fd info, p.openFd fd ⟨file, true⟩) else none
  | .made fd info => some <|
    match p.add ⟨fd, info⟩ with
    | .ok q => (.ended (.ok (.created, fd)) (q.fileOf fd), q)
    | .error e => (.ended (.error (.register e)) none, p.closeFdQuiet fd)
  | .ended _ _ => none

/-- The number a call has in hand. -/
def Call.number (c : Call) : Option RawFd :=
  match c.stage with
  | .took fd | .made fd _ => some fd
  | _ => none

/-- What a call has taken and not yet entered again. -/
def Call.pending (p : Proc) (c : Call) : Option (SockInfo × Option ℕ) :=
  match c.stage with
  | .took fd => some (c.request.key, p.fileOf fd)
  | _ => none

/-- The call has found nothing under its key. -/
def Call.absent (c : Call) : Bool :=
  match c.stage with
  | .missed | .made _ _ => true
  | _ => false

/-- The request and its answer, once the call has taken effect. -/
def Call.effect (p : Proc) (c : Call) : Option (SockInfo × Ledger.Answer (Option ℕ)) :=
  match c.stage with
  | .took fd => some (c.request.key, .handed (p.fileOf fd))
  | .ended (.ok (.inherited, _)) file => some (c.request.key, .handed file)
  | .ended (.ok (.created, _)) file => some (c.request.key, .fresh file)
  | .ended (.error _) _ => some (c.request.key, .refused)
  | _ => none

/-! ## Calls side by side -/

/-- A process and the calls made in it so far. -/
structure Site where
  proc : Proc
  calls : List Call

/-- What happens: a call is made and looks for its key, or goes on; or the application opens
or closes a number of its own. -/
inductive Event
  | call (r : Request)
  | advance (i : ℕ)
  | openFd (fd : RawFd) (d : Desc)
  | closeFd (fd : RawFd)

/-- What the system reports of a new socket is `K` exactly when `K` was asked for. -/
def reports (K : SockInfo) (r : Request) : Bool :=
  match r.creation with
  | .failed _ => true
  | .created _ _ info => (info == K) == (r.key == K)

namespace Site

/-- The numbers calls have in hand. -/
def held (s : Site) : List RawFd := s.calls.filterMap Call.number

/-- What calls have taken and not yet entered again. -/
def pending (s : Site) : List (SockInfo × Option ℕ) := s.calls.filterMap (Call.pending s.proc)

/-- The effect of call `i`. -/
def effectOf (s : Site) (i : ℕ) : Option (SockInfo × Ledger.Answer (Option ℕ)) :=
  s.calls[i]?.bind (Call.effect s.proc)

/-- The number is the application's. -/
def spares (s : Site) (fd : RawFd) : Bool := fd ∉ s.proc.registered ∧ fd ∉ s.held

/-- One step. -/
def step (s : Site) : Event → Option Site
  | .call r => (s.proc.take r.key).map fun (found, p) => ⟨p, s.calls ++ [⟨r, .ofTake found⟩]⟩
  | .advance i =>
    s.calls[i]?.bind fun c =>
      (c.next s.proc).map fun (stage, p) => ⟨p, s.calls.set i { c with stage := stage }⟩
  | .openFd fd d => if s.spares fd then some { s with proc := s.proc.openFd fd d } else none
  | .closeFd fd => if s.spares fd then some { s with proc := s.proc.closeFdQuiet fd } else none

/-- Whose step it is. -/
def caller (s : Site) : Event → Option ℕ
  | .call _ => some s.calls.length
  | .advance i => some i
  | _ => none

/-- What takes effect in a step. -/
def effects (s : Site) (e : Event) (s' : Site) :
    List (ℕ × SockInfo × Ledger.Answer (Option ℕ)) :=
  match s.caller e with
  | some i =>
    match s.effectOf i, s'.effectOf i with
    | none, some x => [(i, x)]
    | _, _ => []
  | none => []

/-- `from_raw_fd` accepts what it is given, no duplication fails, and what is requested has
the property `P`. -/
def orderly (P : Request → Bool) (s : Site) : Event → Bool
  | .call r => r.adopt && P r
  | .advance i =>
    s.calls[i]?.all fun c => c.number.all fun fd => (s.proc.cloneFd fd).isOk
  | _ => true

end Site

/-- Calls of a process that starts as `p`, in every interleaving. -/
def contention (p : Proc) : TransitionSystem Site Event where
  Init := fun s => s = ⟨p, []⟩
  step := Site.step

section

variable {p q : Proc} {s s' : Site} {e : Event} {c c' : Call} {i : ℕ} {fd : RawFd}
  {log : List (ℕ × SockInfo × Ledger.Answer (Option ℕ))} {P : Request → Bool}

/-! ## A call alone -/

/-- The only call goes on. -/
theorem run_advance {p₀ : Proc} {stage : Stage} (h : c.next p = some (stage, q)) (n : ℕ) :
    (contention p₀).run ⟨p, [c]⟩ (List.replicate (n + 1) (.advance 0)) =
      (contention p₀).run ⟨q, [{ c with stage := stage }]⟩ (List.replicate n (.advance 0)) := by
  have hstep : (contention p₀).step ⟨p, [c]⟩ (.advance 0) =
      some ⟨q, [{ c with stage := stage }]⟩ := by
    simp [contention, Site.step, h]
  rw [List.replicate_succ, TransitionSystem.run_cons, hstep, Option.bind_some]

/-- `take` leaves alone what is free. -/
theorem table_take_of_free {k : SockInfo} {found : Option RawFd} (h : p.take k = some (found, q))
    (hfree : p.table fd = none) : q.table fd = none := by
  rcases Proc.take_eq_some h with ⟨-, -, rfl⟩ | ⟨li, d, -, -, hd, rfl⟩
  · exact hfree
  · have hne : fd ≠ li.fd := by
      rintro rfl
      rw [hfree] at hd
      cases hd
    simpa [Proc.openFd, hne] using hfree

/-- The second half of a listening method, which makes a new socket. -/
theorem run_missed (p₀ : Proc) {r : Request} {res : Listened}
    (hfree : ∀ fd file info, r.creation = .created fd file info → p.table fd = none)
    (h : (∃ msg, r.creation = .failed msg ∧ res = .error (.create msg) ∧ q = p) ∨
      ∃ fd file info, r.creation = .created fd file info ∧
        ((p.openFd fd ⟨file, true⟩).add ⟨fd, info⟩ = .ok q ∧ res = .ok (.created, fd) ∨
          ∃ e, (p.openFd fd ⟨file, true⟩).add ⟨fd, info⟩ = .error e ∧
            res = .error (.register e) ∧ q = (p.openFd fd ⟨file, true⟩).closeFdQuiet fd)) :
    ∃ n file, (contention p₀).run ⟨p, [⟨r, .missed⟩]⟩ (List.replicate n (.advance 0)) =
      some ⟨q, [⟨r, .ended res file⟩]⟩ := by
  rcases h with ⟨msg, hcr, rfl, rfl⟩ | ⟨fd, file, info, hcr, hadd⟩
  · have hnext : Call.next ⟨r, .missed⟩ q = some (.ended (.error (.create msg)) none, q) := by
      simp [Call.next, hcr]
    exact ⟨1, none, run_advance hnext 0⟩
  · have hopen : Call.next ⟨r, .missed⟩ p = some (.made fd info, p.openFd fd ⟨file, true⟩) := by
      simp [Call.next, hcr, hfree fd file info hcr]
    rcases hadd with ⟨hadd, rfl⟩ | ⟨e, hadd, rfl, rfl⟩
    · have hnext : Call.next ⟨r, .made fd info⟩ (p.openFd fd ⟨file, true⟩) =
          some (.ended (.ok (.created, fd)) (q.fileOf fd), q) := by
        simp [Call.next, hadd]
      exact ⟨2, q.fileOf fd, (run_advance hopen 1).trans (run_advance hnext 0)⟩
    · have hnext : Call.next ⟨r, .made fd info⟩ (p.openFd fd ⟨file, true⟩) =
          some (.ended (.error (.register e)) none,
            (p.openFd fd ⟨file, true⟩).closeFdQuiet fd) := by
        simp [Call.next, hadd]
      exact ⟨2, none, (run_advance hopen 1).trans (run_advance hnext 0)⟩

/-- **A call that nobody interrupts** does what the method does when it is one step. -/
theorem run_alone {r : Request} {res : Listened} (h : p.listen r = some (res, q))
    (hfree : ∀ fd file info, r.creation = .created fd file info → p.table fd = none) :
    ∃ n file, (contention p).run ⟨p, []⟩ (.call r :: List.replicate n (.advance 0)) =
      some ⟨q, [⟨r, .ended res file⟩]⟩ := by
  have hcall : ∀ {found p₁ es}, p.take r.key = some (found, p₁) →
      (contention p).run ⟨p, []⟩ (.call r :: es) =
        (contention p).run ⟨p₁, [⟨r, .ofTake found⟩]⟩ es := by
    intro found p₁ es htake
    simp [TransitionSystem.run_cons, contention, Site.step, htake]
  rw [Proc.listen_eq] at h
  rcases Proc.listenWith_eq_some h with ⟨fd, p₁, hinh, hadopt⟩ | ⟨p₁, hinh, hcreate⟩
  · -- an inherited socket is claimed
    rcases Proc.inherit_eq_some hinh with ⟨hr, -⟩ | ⟨_, p₂, htake, hadd, hr⟩ | ⟨_, _, _, _, hr⟩
    · cases hr
    · cases hr
      rcases hadopt with ⟨hadopt, rfl, rfl⟩ | ⟨hadopt, rfl, rfl⟩
      · have hnext : Call.next ⟨r, .took fd⟩ p₂ =
            some (.ended (.ok (.inherited, fd)) (q.fileOf fd), q) := by
          simp [Call.next, hadd, hadopt]
        exact ⟨1, q.fileOf fd, (hcall htake).trans (run_advance hnext 0)⟩
      · have hnext : Call.next ⟨r, .took fd⟩ p₂ =
            some (.ended (.error .adopt) none, p₁.closeFdQuiet fd) := by
          simp [Call.next, hadd, hadopt]
        exact ⟨1, none, (hcall htake).trans (run_advance hnext 0)⟩
    · cases hr
  · rcases Proc.inherit_eq_some hinh with
      ⟨-, rfl, htake⟩ | ⟨_, _, _, _, hr⟩ | ⟨fd, e, htake, hadd, -⟩
    · -- there is none
      obtain ⟨n, file, hrun⟩ := run_missed p₁ hfree hcreate
      exact ⟨n, file, (hcall htake).trans hrun⟩
    · cases hr
    · -- there is one, but it cannot be entered again
      have hfree' : ∀ fd file info, r.creation = .created fd file info → p₁.table fd = none :=
        fun fd file info hcr => table_take_of_free htake (hfree fd file info hcr)
      obtain ⟨n, file, hrun⟩ := run_missed p hfree' hcreate
      have hnext : Call.next ⟨r, .took fd⟩ p₁ = some (.missed, p₁) := by
        simp [Call.next, hadd]
      exact ⟨n + 1, file, (hcall htake).trans ((run_advance hnext n).trans hrun)⟩

/-! ## One entry of a list changes -/

/-- What `f` makes of a list in which one entry changes. -/
theorem exists_rest {α β : Type} {l : List α} {i : ℕ} {a : α} (h : l[i]? = some a)
    (f : α → Option β) : ∃ rest, (l.filterMap f).Perm ((f a).toList ++ rest) ∧
      ∀ b, ((l.set i b).filterMap f).Perm ((f b).toList ++ rest) := by
  obtain ⟨hi, ha⟩ := List.getElem?_eq_some_iff.mp h
  have hcons : ∀ b, ((b :: l.eraseIdx i).filterMap f) =
      (f b).toList ++ (l.eraseIdx i).filterMap f := by
    intro b
    rw [List.filterMap_cons]
    cases f b <;> rfl
  refine ⟨(l.eraseIdx i).filterMap f, ?_, fun b => ?_⟩
  · rw [← hcons, ← ha]
    exact (List.getElem_cons_eraseIdx_perm hi).symm.filterMap f
  · rw [← hcons]
    exact (List.set_perm_cons_eraseIdx hi b).filterMap f

/-! ## What is recorded -/

/-- The record has the effect of each call that has taken effect, once. -/
structure Recorded (s : Site) (log : List (ℕ × SockInfo × Ledger.Answer (Option ℕ))) :
    Prop where
  once : (log.map Prod.fst).Nodup
  effect : ∀ i x, (i, x) ∈ log ↔ s.effectOf i = some x

theorem Recorded.keep (h : Recorded s log) (heq : ∀ i, s'.effectOf i = s.effectOf i) :
    Recorded s' log :=
  ⟨h.once, fun i x => by rw [heq, h.effect]⟩

theorem Recorded.add {x : SockInfo × Ledger.Answer (Option ℕ)} (h : Recorded s log)
    (hi : s.effectOf i = none) (hi' : s'.effectOf i = some x)
    (heq : ∀ j, j ≠ i → s'.effectOf j = s.effectOf j) : Recorded s' (log ++ [(i, x)]) := by
  constructor
  · have hnew : i ∉ log.map Prod.fst := by
      intro hmem
      obtain ⟨⟨j, y⟩, hy, rfl⟩ := List.mem_map.mp hmem
      have hsome := (h.effect j y).mp hy
      rw [hi] at hsome
      cases hsome
    rw [List.map_append, List.map_singleton, List.nodup_append]
    refine ⟨h.once, List.nodup_singleton i, ?_⟩
    rintro j hj j' hj' rfl
    rw [List.mem_singleton.mp hj'] at hj
    exact hnew hj
  · intro j y
    rw [List.mem_append, List.mem_singleton, h.effect]
    by_cases hj : j = i
    · subst hj
      rw [hi, hi']
      simp [eq_comm]
    · rw [heq j hj]
      simp [hj]

/-! ## What holds of every site -/

/-- A request with the property `P` is served. -/
def Serves (P : Request → Bool) (_ : Ledger.Owner SockInfo (Option ℕ))
    (e : Ledger.Event SockInfo (Option ℕ)) : Prop :=
  ∃ r, P r = true ∧ e = .request r.key r.creation.fresh

/-- What calls have in hand is open and not in the registry, and the record shows requests of
a ledger, one after the other. -/
structure Sound (P : Request → Bool) (p₀ : Proc) (s : Site)
    (log : List (ℕ × SockInfo × Ledger.Answer (Option ℕ))) : Prop where
  wf : s.proc.WF
  nodup : s.held.Nodup
  apart : ∀ fd ∈ s.held, fd ∉ s.proc.registered ∧ (s.proc.table fd).isSome = true
  absent : ∀ c ∈ s.calls, c.absent = true → s.proc.ledger.find c.request.key = none
  asked : ∀ c ∈ s.calls, c.request.adopt = true ∧ P c.request = true
  made : ∀ c ∈ s.calls, ∀ fd info, c.stage = .made fd info →
    c.request.creation.fresh = some (info, s.proc.fileOf fd)
  order : ∃ used, (Ledger.owner p₀.ledger.inherited).ReachableVia (Serves P)
      ⟨⟨s.proc.ledger.inherited, used⟩, false, log.map Prod.snd⟩ ∧
    used.Perm (s.proc.ledger.used ++ s.pending)
  recorded : Recorded s log

/-- Numbers in hand keep their files. -/
def Keeps (s : Site) (q : Proc) : Prop := ∀ fd ∈ s.held, q.fileOf fd = s.proc.fileOf fd

theorem mem_held (hc : c ∈ s.calls) (hfd : c.number = some fd) : fd ∈ s.held :=
  List.mem_filterMap.mpr ⟨c, hc, hfd⟩

theorem Keeps.pending (h : Keeps s q) (hc : c ∈ s.calls) :
    c.pending q = c.pending s.proc := by
  unfold Call.pending
  split
  · rename_i fd hstage
    rw [h fd (mem_held hc (by simp [Call.number, hstage]))]
  · rfl

theorem Keeps.effect (h : Keeps s q) (hc : c ∈ s.calls) : c.effect q = c.effect s.proc := by
  unfold Call.effect
  split
  · rename_i fd hstage
    rw [h fd (mem_held hc (by simp [Call.number, hstage]))]
  all_goals rfl

theorem Keeps.effectOf_set (h : Keeps s q) {j : ℕ} (hj : j ≠ i) (c' : Call) :
    Site.effectOf ⟨q, s.calls.set i c'⟩ j = s.effectOf j := by
  unfold Site.effectOf
  rw [List.getElem?_set_ne (Ne.symm hj)]
  cases hc : s.calls[j]? with
  | none => rfl
  | some c => exact h.effect (List.mem_of_getElem? hc)

theorem Keeps.pendings (h : Keeps s q) : s.calls.filterMap (Call.pending q) = s.pending :=
  List.filterMap_congr fun _ hc => h.pending hc

theorem Keeps.isSome (h : Keeps s q) (hfd : fd ∈ s.held) (hopen : (s.proc.table fd).isSome = true) :
    (q.table fd).isSome = true := by
  have hfile := congrArg Option.isSome (h fd hfd)
  simp only [Proc.fileOf, Option.isSome_map] at hfile
  rw [hfile]
  exact hopen

/-! ## One step -/

/-- The application opens or closes a number of its own. -/
theorem Sound.beside {p₀ : Proc} (h : Sound P p₀ s log) (hq : q.WF)
    (hreg : q.registered = s.proc.registered) (hledger : q.ledger = s.proc.ledger)
    (hkeeps : Keeps s q) : Sound P p₀ ⟨q, s.calls⟩ log where
  wf := hq
  nodup := h.nodup
  apart := fun fd hfd => by
    obtain ⟨hnot, hopen⟩ := h.apart fd hfd
    exact ⟨hreg ▸ hnot, hkeeps.isSome hfd hopen⟩
  absent := fun c hc habsent => by
    rw [hledger]
    exact h.absent c hc habsent
  asked := h.asked
  made := fun c hc fd info hstage => by
    rw [hkeeps fd (mem_held hc (by simp [Call.number, hstage]))]
    exact h.made c hc fd info hstage
  order := by
    obtain ⟨used, hr, hperm⟩ := h.order
    refine ⟨used, by rw [hledger]; exact hr, ?_⟩
    rw [hledger, Site.pending, hkeeps.pendings]
    exact hperm
  recorded := by
    refine h.recorded.keep fun j => ?_
    unfold Site.effectOf
    cases hc : s.calls[j]? with
    | none => rfl
    | some c => exact hkeeps.effect (List.mem_of_getElem? hc)

/-- A key that is not found is not found later. -/
theorem find_take_eq_none {l : Ledger SockInfo (Option ℕ)} {k k' : SockInfo}
    (h : l.find k = none) : (l.take k').find k = none := by
  rw [Ledger.find, Option.map_eq_none_iff, List.find?_eq_none] at h ⊢
  exact fun x hx => h x (List.mem_of_mem_eraseP hx)

theorem fileOf_take {k : SockInfo} {r : Option RawFd} (h : p.take k = some (r, q)) (fd : RawFd) :
    q.fileOf fd = p.fileOf fd := by
  rcases Proc.take_eq_some h with ⟨-, -, rfl⟩ | ⟨li, d, -, -, hd, rfl⟩
  · rfl
  · exact Proc.fileOf_setFlag hd true fd

/-- A new call leaves the effects of the others alone. -/
theorem Keeps.effectOf_append (h : Keeps s q) {j : ℕ} (hj : j ≠ s.calls.length) (c : Call) :
    Site.effectOf ⟨q, s.calls ++ [c]⟩ j = s.effectOf j := by
  unfold Site.effectOf
  rcases Nat.lt_or_gt_of_ne hj with hlt | hgt
  · rw [List.getElem?_append_left hlt]
    cases hc : s.calls[j]? with
    | none => rfl
    | some c => exact h.effect (List.mem_of_getElem? hc)
  · rw [List.getElem?_eq_none (by simp; omega), List.getElem?_eq_none (by omega)]
    rfl

/-- **Step lemma**: a call is made.  What it finds and what takes effect is left to the two
cases. -/
theorem Sound.called {p₀ : Proc} {log' : List (ℕ × SockInfo × Ledger.Answer (Option ℕ))}
    (h : Sound P p₀ s log) (hq : q.WF) (hkeeps : Keeps s q)
    (hfind : ∀ k, s.proc.ledger.find k = none → q.ledger.find k = none)
    (hasked : c.request.adopt = true ∧ P c.request = true)
    (habsent : c.absent = true → q.ledger.find c.request.key = none)
    (hreg : ∀ fd ∈ s.held, fd ∉ q.registered)
    (hnum : ∀ fd, c.number = some fd →
      fd ∉ s.held ∧ fd ∉ q.registered ∧ (q.table fd).isSome = true)
    (hmade : ∀ fd info, c.stage ≠ .made fd info)
    (horder : ∃ used, (Ledger.owner p₀.ledger.inherited).ReachableVia (Serves P)
        ⟨⟨q.ledger.inherited, used⟩, false, log'.map Prod.snd⟩ ∧
      used.Perm (q.ledger.used ++ Site.pending ⟨q, s.calls ++ [c]⟩))
    (hrec : Recorded ⟨q, s.calls ++ [c]⟩ log') : Sound P p₀ ⟨q, s.calls ++ [c]⟩ log' := by
  have hheld : Site.held ⟨q, s.calls ++ [c]⟩ = s.held ++ c.number.toList := by
    rw [Site.held, List.filterMap_append]
    cases hc : c.number <;> simp [Site.held, hc]
  refine ⟨hq, ?_, ?_, ?_, ?_, ?_, horder, hrec⟩
  · rw [hheld, List.nodup_append]
    refine ⟨h.nodup, by cases c.number <;> simp, ?_⟩
    rintro fd hfd fd' hfd' rfl
    exact (hnum fd (Option.mem_toList.mp hfd')).1 hfd
  · intro fd hfd
    rw [hheld, List.mem_append] at hfd
    rcases hfd with hold | hnew
    · exact ⟨hreg fd hold, hkeeps.isSome hold (h.apart fd hold).2⟩
    · exact (hnum fd (Option.mem_toList.mp hnew)).2
  · intro c₁ hc₁ habs
    rcases List.mem_append.mp hc₁ with hmem | hnew
    · exact hfind _ (h.absent c₁ hmem habs)
    · rw [List.mem_singleton.mp hnew] at habs ⊢
      exact habsent habs
  · intro c₁ hc₁
    rcases List.mem_append.mp hc₁ with hmem | hnew
    · exact h.asked c₁ hmem
    · rw [List.mem_singleton.mp hnew]
      exact hasked
  · intro c₁ hc₁ fd info hstage
    rcases List.mem_append.mp hc₁ with hmem | hnew
    · rw [hkeeps fd (mem_held hmem (by simp [Call.number, hstage]))]
      exact h.made c₁ hmem fd info hstage
    · rw [List.mem_singleton.mp hnew] at hstage
      exact absurd hstage (hmade fd info)

/-- **Step lemma**: a call is made and finds an entry under its key. -/
theorem Sound.took {p₀ : Proc} {r : Request} (h : Sound P p₀ s log)
    (hasked : r.adopt = true ∧ P r = true)
    (htake : s.proc.take r.key = some (some fd, q)) :
    Sound P p₀ ⟨q, s.calls ++ [⟨r, .took fd⟩]⟩
      (log ++ [(s.calls.length, r.key, .handed (q.fileOf fd))]) := by
  obtain ⟨hq, hsub, hfd⟩ := h.wf.take htake
  obtain ⟨hledger, hfind, -⟩ := Proc.ledger_take htake
  have hkeeps : Keeps s q := fun fd _ => fileOf_take htake fd
  have hpending : Site.pending ⟨q, s.calls ++ [⟨r, .took fd⟩]⟩ =
      s.pending ++ [(r.key, q.fileOf fd)] := by
    rw [Site.pending, List.filterMap_append, hkeeps.pendings]
    rfl
  refine h.called hq hkeeps (fun k hk => hledger ▸ find_take_eq_none hk) hasked
    (by rintro ⟨⟩) (fun fd' hfd' hreg => (h.apart fd' hfd').1 (hsub.subset hreg)) ?_
    (by rintro fd' info ⟨⟩) ?_ ?_
  · rintro fd' ⟨⟩
    -- what is taken was the registry's, so no other call has it
    have hold : fd ∉ s.held := fun hmem =>
      (h.apart fd hmem).1 (Proc.mem_registered_of_take htake)
    exact ⟨hold, hfd fd rfl⟩
  · obtain ⟨used, hr, hperm⟩ := h.order
    refine ⟨used ++ [(r.key, q.fileOf fd)], ?_, ?_⟩
    · refine hr.step ⟨r, hasked.2, rfl⟩ ?_
      have hfound : Ledger.find ⟨s.proc.ledger.inherited, used⟩ r.key = some (q.fileOf fd) := hfind
      simp only [Ledger.owner, Ledger.Owner.step, Ledger.request_of_find_eq_some hfound, hledger]
      simp [Ledger.take, Ledger.register]
    · rw [hpending, hledger, ← List.append_assoc]
      exact hperm.append_right _
  · refine h.recorded.add ?_ ?_ fun j hj => hkeeps.effectOf_append hj _
    · simp [Site.effectOf]
    · simp [Site.effectOf, Call.effect]

/-- **Step lemma**: a call is made and finds nothing under its key. -/
theorem Sound.missed {p₀ : Proc} {r : Request} (h : Sound P p₀ s log)
    (hasked : r.adopt = true ∧ P r = true)
    (hfind : s.proc.ledger.find r.key = none) :
    Sound P p₀ ⟨s.proc, s.calls ++ [⟨r, .missed⟩]⟩ log := by
  have hkeeps : Keeps s s.proc := fun _ _ => rfl
  have hpending : Site.pending ⟨s.proc, s.calls ++ [⟨r, .missed⟩]⟩ = s.pending := by
    simp [Site.pending, Call.pending]
  refine h.called h.wf hkeeps (fun _ hk => hk) hasked (fun _ => hfind)
    (fun fd hfd => (h.apart fd hfd).1) (by rintro fd ⟨⟩) (by rintro fd info ⟨⟩)
    (hpending ▸ h.order) (h.recorded.keep fun j => ?_)
  by_cases hj : j = s.calls.length
  · rw [hj]
    simp [Site.effectOf, Call.effect]
  · exact hkeeps.effectOf_append hj _

/-- What a call that goes on does to what has been taken and not yet entered again. -/
theorem Keeps.pending_set (h : Keeps s q) (hc : s.calls[i]? = some c) (c' : Call) :
    ∃ rest, s.pending.Perm ((c.pending s.proc).toList ++ rest) ∧
      (Site.pending ⟨q, s.calls.set i c'⟩).Perm ((c'.pending q).toList ++ rest) := by
  obtain ⟨rest, hbefore, hafter⟩ := exists_rest hc (Call.pending q)
  rw [h.pendings, h.pending (List.mem_of_getElem? hc)] at hbefore
  exact ⟨rest, hbefore, hafter c'⟩

/-- What takes effect when call `i` goes on. -/
theorem effects_advance (hc : s.calls[i]? = some c) :
    s.effects (.advance i) ⟨q, s.calls.set i c'⟩ =
      match c.effect s.proc, c'.effect q with
      | none, some x => [(i, x)]
      | _, _ => [] := by
  have hi := (List.getElem?_eq_some_iff.mp hc).1
  simp only [Site.effects, Site.caller, Site.effectOf, hc, List.getElem?_set_self hi,
    Option.bind_some]

/-- A call that goes on takes effect, or has the effect it had. -/
theorem Recorded.advance (h : Recorded s log) (hkeeps : Keeps s q) (hc : s.calls[i]? = some c)
    (heff : c.effect s.proc = none ∨ c'.effect q = c.effect s.proc) :
    Recorded ⟨q, s.calls.set i c'⟩ (log ++ s.effects (.advance i) ⟨q, s.calls.set i c'⟩) := by
  have hi := (List.getElem?_eq_some_iff.mp hc).1
  have hbefore : s.effectOf i = c.effect s.proc := by
    rw [Site.effectOf, hc, Option.bind_some]
  have hafter : Site.effectOf ⟨q, s.calls.set i c'⟩ i = c'.effect q := by
    rw [Site.effectOf, List.getElem?_set_self hi, Option.bind_some]
  have hother : ∀ j, j ≠ i → Site.effectOf ⟨q, s.calls.set i c'⟩ j = s.effectOf j :=
    fun j hj => hkeeps.effectOf_set hj c'
  have hkeep : c'.effect q = c.effect s.proc → Recorded ⟨q, s.calls.set i c'⟩ (log ++ []) := by
    intro heq
    rw [List.append_nil]
    refine h.keep fun j => ?_
    by_cases hj : j = i
    · rw [hj, hafter, hbefore, heq]
    · exact hother j hj
  rw [effects_advance hc]
  cases hold : c.effect s.proc with
  | some x =>
    have heq := heff.resolve_left (by rw [hold]; nofun)
    exact hkeep heq
  | none =>
    cases hnew : c'.effect q with
    | none => exact hkeep (hnew.trans hold.symm)
    | some x => exact h.add (hbefore.trans hold) (hafter.trans hnew) hother

/-- **Step lemma**: a call goes on.  What it has done to the entries in use and what takes
effect is left to each step. -/
theorem Sound.advance {p₀ : Proc} {log' : List (ℕ × SockInfo × Ledger.Answer (Option ℕ))}
    (h : Sound P p₀ s log) (hc : s.calls[i]? = some c) (hq : q.WF) (hkeeps : Keeps s q)
    (hinh : q.ledger.inherited = s.proc.ledger.inherited)
    (hreq : c'.request = c.request) (habsent : c'.absent = true → c.absent = true)
    (hreg : ∀ fd ∈ s.held, fd ∉ q.registered)
    (hnum : ∀ fd, c'.number = some fd →
      fd ∉ s.held ∧ fd ∉ q.registered ∧ (q.table fd).isSome = true)
    (hmade : ∀ fd info, c'.stage = .made fd info →
      c'.request.creation.fresh = some (info, q.fileOf fd))
    (horder : ∃ used, (Ledger.owner p₀.ledger.inherited).ReachableVia (Serves P)
        ⟨⟨q.ledger.inherited, used⟩, false, log'.map Prod.snd⟩ ∧
      used.Perm (q.ledger.used ++ Site.pending ⟨q, s.calls.set i c'⟩))
    (hrec : Recorded ⟨q, s.calls.set i c'⟩ log') : Sound P p₀ ⟨q, s.calls.set i c'⟩ log' := by
  obtain ⟨rest, hbefore, hafter⟩ := exists_rest hc Call.number
  have hheld : (Site.held ⟨q, s.calls.set i c'⟩).Perm (c'.number.toList ++ rest) := hafter c'
  have hrest : ∀ fd ∈ rest, fd ∈ s.held := fun fd hfd =>
    hbefore.mem_iff.mpr (List.mem_append_right _ hfd)
  have hcmem := List.mem_of_getElem? hc
  have hfind : ∀ k, q.ledger.find k = s.proc.ledger.find k := fun k => by
    rw [Ledger.find, hinh]
    rfl
  refine ⟨hq, ?_, ?_, ?_, ?_, ?_, horder, hrec⟩
  · rw [hheld.nodup_iff, List.nodup_append]
    refine ⟨?_, (List.nodup_append.mp (hbefore.nodup_iff.mp h.nodup)).2.1, ?_⟩
    · cases c'.number <;> simp
    · rintro fd hfd fd' hfd' rfl
      exact (hnum fd (Option.mem_toList.mp hfd)).1 (hrest fd hfd')
  · intro fd hfd
    rw [hheld.mem_iff, List.mem_append] at hfd
    rcases hfd with hnew | hold
    · exact (hnum fd (Option.mem_toList.mp hnew)).2
    · have hmem := hrest fd hold
      exact ⟨hreg fd hmem, hkeeps.isSome hmem (h.apart fd hmem).2⟩
  · intro c₁ hc₁ habs
    rw [hfind]
    rcases List.mem_or_eq_of_mem_set hc₁ with hmem | rfl
    · exact h.absent c₁ hmem habs
    · rw [hreq]
      exact h.absent c hcmem (habsent habs)
  · intro c₁ hc₁
    rcases List.mem_or_eq_of_mem_set hc₁ with hmem | rfl
    · exact h.asked c₁ hmem
    · rw [hreq]
      exact h.asked c hcmem
  · intro c₁ hc₁ fd info hstage
    rcases List.mem_or_eq_of_mem_set hc₁ with hmem | rfl
    · rw [hkeeps fd (mem_held hmem (by simp [Call.number, hstage]))]
      exact h.made c₁ hmem fd info hstage
    · exact hmade fd info hstage

/-- `add`, for any number. -/
theorem Sound.of_add {p₀ : Proc} {item : ListenerInfo} (h : Sound P p₀ s log)
    (hadd : s.proc.add item = .ok q) :
    q.WF ∧ Keeps s q ∧ (∀ fd ∈ s.held, fd ∉ q.registered) ∧
      q.ledger = s.proc.ledger.register item.sockInfo (s.proc.fileOf item.fd) := by
  obtain ⟨hq, hout⟩ := h.wf.add hadd
  obtain ⟨hledger, hfile⟩ := Proc.ledger_add h.wf hadd
  refine ⟨hq, fun fd hfd => hfile fd (h.apart fd hfd).2, fun fd hfd => ?_, hledger⟩
  exact hout fd (h.apart fd hfd).1 (h.apart fd hfd).2

/-- **Step lemma**: a call that has taken a number enters it again. -/
theorem Sound.entered {p₀ : Proc} {r : Request} (h : Sound P p₀ s log)
    (hc : s.calls[i]? = some ⟨r, .took fd⟩) (hadd : s.proc.add ⟨fd, r.key⟩ = .ok q) :
    let c' : Call := ⟨r, .ended (.ok (.inherited, fd)) (q.fileOf fd)⟩
    Sound P p₀ ⟨q, s.calls.set i c'⟩
      (log ++ s.effects (.advance i) ⟨q, s.calls.set i c'⟩) := by
  intro c'
  obtain ⟨hq, hkeeps, hreg, hledger⟩ := h.of_add hadd
  have hfile : q.fileOf fd = s.proc.fileOf fd :=
    hkeeps fd (mem_held (List.mem_of_getElem? hc) rfl)
  have heff : s.effects (.advance i) ⟨q, s.calls.set i c'⟩ = [] := by
    rw [effects_advance hc]
    rfl
  refine h.advance hc hq hkeeps (by rw [hledger]; rfl) rfl (by rintro ⟨⟩) hreg
    (by rintro fd' ⟨⟩) (by rintro fd' info ⟨⟩) ?_ (h.recorded.advance hkeeps hc (.inr ?_))
  · -- the entry goes from what is pending to what is in use
    obtain ⟨used, hr, hperm⟩ := h.order
    obtain ⟨rest, hbefore, hafter⟩ := hkeeps.pending_set hc c'
    refine ⟨used, by rw [heff, List.append_nil, hledger]; exact hr, ?_⟩
    have hmoved : (s.proc.ledger.used ++ ([(r.key, s.proc.fileOf fd)] ++ rest)).Perm
        (q.ledger.used ++ rest) := by
      rw [hledger, ← List.append_assoc]
      rfl
    calc
      List.Perm used (s.proc.ledger.used ++ s.pending) := hperm
      List.Perm _ _ := (hbefore.append_left _).trans hmoved
      List.Perm _ _ := hafter.symm.append_left _
  · show some (r.key, Ledger.Answer.handed (q.fileOf fd)) = _
    rw [hfile]
    rfl

/-- A call with nothing pending goes on to a stage with nothing pending. -/
theorem Keeps.pending_set_none (h : Keeps s q) (hc : s.calls[i]? = some c) (c' : Call)
    (hold : c.pending s.proc = none) (hnew : c'.pending q = none) :
    (Site.pending ⟨q, s.calls.set i c'⟩).Perm s.pending := by
  obtain ⟨rest, hbefore, hafter⟩ := h.pending_set hc c'
  rw [hold] at hbefore
  rw [hnew] at hafter
  exact hafter.trans hbefore.symm

/-- **Step lemma**: a call that has found nothing cannot make a socket. -/
theorem Sound.refused {p₀ : Proc} {r : Request} {msg : String} (h : Sound P p₀ s log)
    (hc : s.calls[i]? = some ⟨r, .missed⟩) (hcr : r.creation = .failed msg) :
    let c' : Call := ⟨r, .ended (.error (.create msg)) none⟩
    Sound P p₀ ⟨s.proc, s.calls.set i c'⟩
      (log ++ s.effects (.advance i) ⟨s.proc, s.calls.set i c'⟩) := by
  intro c'
  have hkeeps : Keeps s s.proc := fun _ _ => rfl
  have heff : s.effects (.advance i) ⟨s.proc, s.calls.set i c'⟩ = [(i, r.key, .refused)] := by
    rw [effects_advance hc]
    rfl
  refine h.advance hc h.wf hkeeps rfl rfl (by rintro ⟨⟩) (fun fd hfd => (h.apart fd hfd).1)
    (by rintro fd' ⟨⟩) (by rintro fd' info ⟨⟩) ?_ (h.recorded.advance hkeeps hc (.inl rfl))
  obtain ⟨used, hr, hperm⟩ := h.order
  have hfind : Ledger.find ⟨s.proc.ledger.inherited, used⟩ r.key = none :=
    h.absent _ (List.mem_of_getElem? hc) rfl
  have hfresh : r.creation.fresh = none := by
    rw [hcr]
    rfl
  refine ⟨used, hr.step ⟨r, (h.asked _ (List.mem_of_getElem? hc)).2, rfl⟩ ?_, ?_⟩
  · simp only [Ledger.owner, Ledger.Owner.step, Ledger.request_of_find_eq_none hfind, heff,
      hfresh]
    simp
  · exact hperm.trans ((hkeeps.pending_set_none hc c' rfl rfl).symm.append_left _)

/-- **Step lemma**: a call that has found nothing makes a socket. -/
theorem Sound.opened {p₀ : Proc} {r : Request} {file : ℕ} {info : SockInfo}
    (h : Sound P p₀ s log) (hc : s.calls[i]? = some ⟨r, .missed⟩)
    (hcr : r.creation = .created fd file info) (hfree : s.proc.table fd = none) :
    let c' : Call := ⟨r, .made fd info⟩
    let q := s.proc.openFd fd ⟨file, true⟩
    Sound P p₀ ⟨q, s.calls.set i c'⟩
      (log ++ s.effects (.advance i) ⟨q, s.calls.set i c'⟩) := by
  intro c' q
  have hnreg : fd ∉ s.proc.registered := fun hmem => h.wf.ne_of_free hfree hmem rfl
  have hnheld : fd ∉ s.held := fun hmem => by
    have hopen := (h.apart fd hmem).2
    rw [hfree] at hopen
    cases hopen
  have hkeeps : Keeps s q := fun fd' hfd' =>
    Proc.fileOf_openFd_of_ne fun heq => hnheld (heq ▸ hfd')
  have hledger : q.ledger = s.proc.ledger := Proc.ledger_openFd hnreg
  have heff : s.effects (.advance i) ⟨q, s.calls.set i c'⟩ = [] := by
    rw [effects_advance hc]
    rfl
  refine h.advance hc (h.wf.openFd fd ⟨file, true⟩) hkeeps (by rw [hledger]) rfl (fun _ => rfl)
    (fun fd hfd => (h.apart fd hfd).1) ?_ ?_ ?_ (h.recorded.advance hkeeps hc (.inl rfl))
  · rintro fd' ⟨⟩
    exact ⟨hnheld, hnreg, by simp [q, Proc.openFd]⟩
  · rintro fd' info' ⟨⟩
    rw [hcr, Proc.fileOf_openFd_self]
    rfl
  · obtain ⟨used, hr, hperm⟩ := h.order
    refine ⟨used, by rw [heff, List.append_nil, hledger]; exact hr, ?_⟩
    rw [hledger]
    exact hperm.trans ((hkeeps.pending_set_none hc c' rfl rfl).symm.append_left _)

/-- **Step lemma**: a call enters the socket it has made. -/
theorem Sound.registered {p₀ : Proc} {r : Request} {info : SockInfo} (h : Sound P p₀ s log)
    (hc : s.calls[i]? = some ⟨r, .made fd info⟩) (hadd : s.proc.add ⟨fd, info⟩ = .ok q) :
    let c' : Call := ⟨r, .ended (.ok (.created, fd)) (q.fileOf fd)⟩
    Sound P p₀ ⟨q, s.calls.set i c'⟩
      (log ++ s.effects (.advance i) ⟨q, s.calls.set i c'⟩) := by
  intro c'
  obtain ⟨hq, hkeeps, hreg, hledger⟩ := h.of_add hadd
  have hfile : q.fileOf fd = s.proc.fileOf fd :=
    hkeeps fd (mem_held (List.mem_of_getElem? hc) rfl)
  have heff : s.effects (.advance i) ⟨q, s.calls.set i c'⟩ =
      [(i, r.key, .fresh (q.fileOf fd))] := by
    rw [effects_advance hc]
    rfl
  refine h.advance hc hq hkeeps (by rw [hledger]; rfl) rfl (by rintro ⟨⟩) hreg
    (by rintro fd' ⟨⟩) (by rintro fd' info ⟨⟩) ?_ (h.recorded.advance hkeeps hc (.inl rfl))
  obtain ⟨used, hr, hperm⟩ := h.order
  have hcmem := List.mem_of_getElem? hc
  have hfind : Ledger.find ⟨s.proc.ledger.inherited, used⟩ r.key = none := h.absent _ hcmem rfl
  have hfresh : r.creation.fresh = some (info, q.fileOf fd) := by
    rw [hfile]
    exact h.made _ hcmem fd info rfl
  refine ⟨used ++ [(info, q.fileOf fd)], hr.step ⟨r, (h.asked _ hcmem).2, rfl⟩ ?_, ?_⟩
  · simp only [Ledger.owner, Ledger.Owner.step, Ledger.request_of_find_eq_none hfind, heff,
      hledger, hfresh]
    simp [Ledger.register]
  · -- the new entry stands before what is pending
    have hadded : q.ledger.used = s.proc.ledger.used ++ [(info, q.fileOf fd)] := by
      rw [hledger, hfile]
      rfl
    have hpending := hkeeps.pending_set_none hc c' rfl rfl
    calc
      List.Perm (used ++ [(info, q.fileOf fd)])
          (s.proc.ledger.used ++ s.pending ++ [(info, q.fileOf fd)]) := hperm.append_right _
      List.Perm _ (s.proc.ledger.used ++ [(info, q.fileOf fd)] ++ s.pending) := by
        rw [List.append_assoc, List.append_assoc]
        exact List.perm_append_comm.append_left _
      List.Perm _ _ := by
        rw [← hadded]
        exact hpending.symm.append_left _

/-- **Step lemma**: a call goes on, wherever it stands. -/
theorem Sound.next {p₀ : Proc} {stage : Stage} (h : Sound P p₀ s log) (hc : s.calls[i]? = some c)
    (hdup : (c.number.all fun fd => (s.proc.cloneFd fd).isOk) = true)
    (hnext : c.next s.proc = some (stage, q)) :
    Sound P p₀ ⟨q, s.calls.set i { c with stage := stage }⟩
      (log ++ s.effects (.advance i) ⟨q, s.calls.set i { c with stage := stage }⟩) := by
  have hadopt := (h.asked c (List.mem_of_getElem? hc)).1
  obtain ⟨r, old⟩ := c
  cases old with
  | took fd =>
    cases hadd : s.proc.add ⟨fd, r.key⟩ with
    | error e => exact absurd hadd (Proc.add_ne_error hdup)
    | ok p =>
      simp only [Call.next, hadd, hadopt, if_true] at hnext
      cases hnext
      exact h.entered hc hadd
  | missed =>
    cases hcr : r.creation with
    | failed msg =>
      simp only [Call.next, hcr] at hnext
      cases hnext
      exact h.refused hc hcr
    | created fd file info =>
      simp only [Call.next, hcr] at hnext
      split at hnext
      · rename_i hfree
        cases hnext
        exact h.opened hc hcr hfree
      · cases hnext
  | made fd info =>
    cases hadd : s.proc.add ⟨fd, info⟩ with
    | error e => exact absurd hadd (Proc.add_ne_error hdup)
    | ok p =>
      simp only [Call.next, hadd] at hnext
      cases hnext
      exact h.registered hc hadd
  | ended res file => cases hnext

/-- **Step lemma**: whatever happens in an orderly run. -/
theorem Sound.step {p₀ : Proc} (h : Sound P p₀ s log) (hok : s.orderly P e = true)
    (hs : s.step e = some s') : Sound P p₀ s' (log ++ s.effects e s') := by
  cases e with
  | call r =>
    obtain ⟨⟨found, q⟩, htake, rfl⟩ := Option.map_eq_some_iff.mp hs
    cases found with
    | some fd =>
      have heff : s.effects (.call r) ⟨q, s.calls ++ [⟨r, .took fd⟩]⟩ =
          [(s.calls.length, r.key, .handed (q.fileOf fd))] := by
        simp [Site.effects, Site.caller, Site.effectOf, Call.effect]
      have hstep := h.took (Bool.and_eq_true_iff.mp hok) htake
      rw [← heff] at hstep
      exact hstep
    | none =>
      obtain ⟨rfl, hfind⟩ := Proc.ledger_take_none htake
      have heff : s.effects (.call r) ⟨s.proc, s.calls ++ [⟨r, .missed⟩]⟩ = [] := by
        simp [Site.effects, Site.caller, Site.effectOf, Call.effect]
      have hstep := h.missed (Bool.and_eq_true_iff.mp hok) hfind
      rw [← List.append_nil log, ← heff] at hstep
      exact hstep
  | advance i =>
    obtain ⟨c, hc, hs⟩ := Option.bind_eq_some_iff.mp hs
    obtain ⟨⟨stage, q⟩, hnext, rfl⟩ := Option.map_eq_some_iff.mp hs
    have hdup : (c.number.all fun fd => (s.proc.cloneFd fd).isOk) = true := by
      simpa only [Site.orderly, hc, Option.all_some] using hok
    exact h.next hc hdup hnext
  | openFd fd d =>
    obtain ⟨hspare, hs⟩ := Option.ite_none_right_eq_some.mp hs
    cases hs
    simp only [Site.spares, Bool.decide_and, Bool.and_eq_true, decide_eq_true_eq] at hspare
    rw [show s.effects (.openFd fd d) _ = [] from rfl, List.append_nil]
    exact h.beside (h.wf.openFd fd d) rfl (Proc.ledger_openFd hspare.1) fun fd' hfd' =>
      Proc.fileOf_openFd_of_ne fun heq => hspare.2 (heq ▸ hfd')
  | closeFd fd =>
    obtain ⟨hspare, hs⟩ := Option.ite_none_right_eq_some.mp hs
    cases hs
    simp only [Site.spares, Bool.decide_and, Bool.and_eq_true, decide_eq_true_eq] at hspare
    rw [show s.effects (.closeFd fd) _ = [] from rfl, List.append_nil]
    exact h.beside (h.wf.closeFdQuiet hspare.1) rfl (Proc.ledger_closeFdQuiet hspare.1)
      fun fd' hfd' => Proc.fileOf_closeFdQuiet_of_ne fun heq => hspare.2 (heq ▸ hfd')

/-- Before any call. -/
theorem sound_init {p₀ : Proc} (hp : p₀.WF) (hused : p₀.usedFds = []) :
    Sound P p₀ ⟨p₀, []⟩ [] where
  wf := hp
  nodup := List.nodup_nil
  apart := fun fd hfd => by cases hfd
  absent := fun c hc => by cases hc
  asked := fun c hc => by cases hc
  made := fun c hc => by cases hc
  order := by
    refine ⟨[], .init rfl, ?_⟩
    simp [Proc.ledger, hused, Site.pending]
  recorded := ⟨List.nodup_nil, fun i x => by simp [Site.effectOf]⟩

/-- **Run lemma.** -/
theorem sound_of_reachable {p₀ : Proc}
    {x : Site × List (ℕ × SockInfo × Ledger.Answer (Option ℕ))} (hp : p₀.WF)
    (hused : p₀.usedFds = [])
    (hr : ((contention p₀).recording Site.effects).ReachableVia
      (fun x e => x.1.orderly P e = true) x) : Sound P p₀ x.1 x.2 := by
  refine hr.recorded ?_ fun s log e s' _ h hok hs => h.step hok hs
  rintro s rfl
  exact sound_init hp hused

/-! ## The order of the calls -/

/-- **Calls take effect at once.**  With calls side by side in any way, each call that has
taken effect is in the record, once, at the step of its own in which it did; the record is
what requests of one ledger, one after the other, obtain; and the entries in use are that
ledger's, but for their order and for what calls have taken and not yet entered again. -/
theorem calls_take_effect_at_once {p₀ : Proc}
    {x : Site × List (ℕ × SockInfo × Ledger.Answer (Option ℕ))} (hp : p₀.WF)
    (hused : p₀.usedFds = [])
    (hr : ((contention p₀).recording Site.effects).ReachableVia
      (fun x e => x.1.orderly P e = true) x) :
    (x.2.map Prod.fst).Nodup ∧ (∀ i y, (i, y) ∈ x.2 ↔ x.1.effectOf i = some y) ∧
      ∃ used, (Ledger.owner p₀.ledger.inherited).ReachableVia (Serves P)
          ⟨⟨x.1.proc.ledger.inherited, used⟩, false, x.2.map Prod.snd⟩ ∧
        used.Perm (x.1.proc.ledger.used ++ x.1.pending) := by
  have h := sound_of_reachable hp hused hr
  exact ⟨h.recorded.once, h.recorded.effect, h.order⟩

/-- Two threads ask for one inherited socket: the second finds it gone, and has a new one
made and entered before the first has entered the one it took. -/
def overtaking : List Event :=
  [.call (.tcp (localhost 8080) (.failed "address in use")),
    .call (.tcp (localhost 8080) (.created 3 20 (localhost 8080))), .advance 1, .advance 1]

/-- The record is that of two requests when one of the two calls has yet to end. -/
theorem calls_take_effect_at_once_overtaken :
    ∃ (x : Site × List (ℕ × SockInfo × Ledger.Answer (Option ℕ))) (used : List _),
      (contention inheritingProc).Reachable x.1 ∧ x.2.map Prod.fst = [0, 1] ∧
        x.1.proc.ledger.used.length = 1 ∧ used.length = 2 ∧
        (Ledger.owner inheritingProc.ledger.inherited).ReachableVia (Serves fun _ => true)
          ⟨⟨x.1.proc.ledger.inherited, used⟩, false, x.2.map Prod.snd⟩ := by
  have hrun : (((contention inheritingProc).recording Site.effects).runVia
      (fun x e => x.1.orderly (fun _ => true) e) (⟨inheritingProc, []⟩, []) overtaking).map
      (fun x => x.2.map Prod.fst == [0, 1] && x.1.proc.ledger.used.length == 1 &&
        x.1.pending.length == 1) = some true := by
    decide +kernel
  obtain ⟨x, hx, hcheck⟩ := Option.map_eq_some_iff.mp hrun
  simp only [Bool.and_eq_true, beq_iff_eq] at hcheck
  obtain ⟨⟨horder, hused⟩, hpending⟩ := hcheck
  have hinit : ((contention inheritingProc).recording Site.effects).Init
      (⟨inheritingProc, []⟩, []) := ⟨rfl, rfl⟩
  have hr := TransitionSystem.reachableVia_of_runVia (.init hinit) hx
  obtain ⟨-, -, used, howner, hperm⟩ := calls_take_effect_at_once wf_inheritingProc rfl hr
  refine ⟨x, used, hr.of_recording, horder, hused, ?_, howner⟩
  rw [hperm.length_eq, List.length_append, hused, hpending]

/-! ## Inherited sockets -/

/-- Requests that are reported back as they were made keep `K` apart in the ledger. -/
theorem keepsApart_of_serves {K : SockInfo} {o : Ledger.Owner SockInfo (Option ℕ)}
    {d : Ledger.Event SockInfo (Option ℕ)} (h : Serves (reports K) o d) :
    Ledger.KeepsApart K d := by
  obtain ⟨r, hr, rfl⟩ := h
  intro k f hkf
  unfold reports at hr
  cases hcr : r.creation with
  | failed msg =>
    rw [hcr] at hkf
    cases hkf
  | created fd file info =>
    rw [hcr] at hr hkf
    cases hkf
    exact beq_iff_eq.mp hr

/-- **An inherited socket is handed out once**, however many calls ask for it at once: of the
calls for `K`, in the order in which they take effect, the `j`-th is handed the `j`-th
inherited socket of that key, and as many as there have been calls are no longer to be had. -/
theorem inherited_once {p₀ : Proc} {K : SockInfo}
    {x : Site × List (ℕ × SockInfo × Ledger.Answer (Option ℕ))} (hp : p₀.WF)
    (hused : p₀.usedFds = [])
    (hr : ((contention p₀).recording Site.effects).ReachableVia
      (fun x e => x.1.orderly (reports K) e = true) x) :
    let answers := (queue Prod.fst K (x.2.map Prod.snd)).map Prod.snd
    queue Prod.fst K x.1.proc.ledger.inherited =
        (queue Prod.fst K p₀.ledger.inherited).drop answers.length ∧
      ∀ (j : ℕ) k file a, (queue Prod.fst K p₀.ledger.inherited)[j]? = some (k, file) →
        answers[j]? = some a → a = .handed file := by
  obtain ⟨used, howner, -⟩ := (sound_of_reachable hp hused hr).order
  have hserved := Ledger.served (howner.mono fun _ _ h => keepsApart_of_serves h)
  exact ⟨hserved.rest rfl, fun j k file a hj ha => hserved.handed rfl j (k, file) a hj ha⟩

/-- Of two calls for one inherited socket, side by side, the first to take it has it. -/
theorem inherited_once_overtaken :
    ∃ x : Site × List (ℕ × SockInfo × Ledger.Answer (Option ℕ)),
      (contention inheritingProc).Reachable x.1 ∧
        ((queue Prod.fst (.tcp (localhost 8080)) (x.2.map Prod.snd)).map Prod.snd)[0]? =
          some (.handed (some 5)) := by
  have hrun : (((contention inheritingProc).recording Site.effects).runVia
      (fun x e => x.1.orderly (reports (.tcp (localhost 8080))) e) (⟨inheritingProc, []⟩, [])
      overtaking).map
      (fun x => ((queue Prod.fst (.tcp (localhost 8080)) (x.2.map Prod.snd)).map
        Prod.snd).length == 2) = some true := by
    decide +kernel
  obtain ⟨x, hx, hcheck⟩ := Option.map_eq_some_iff.mp hrun
  have hinit : ((contention inheritingProc).recording Site.effects).Init
      (⟨inheritingProc, []⟩, []) := ⟨rfl, rfl⟩
  have hr := TransitionSystem.reachableVia_of_runVia (.init hinit) hx
  obtain ⟨-, hhanded⟩ := inherited_once wf_inheritingProc rfl hr
  have hlen := beq_iff_eq.mp hcheck
  have hpos : 0 < ((queue Prod.fst (.tcp (localhost 8080)) (x.2.map Prod.snd)).map
      Prod.snd).length := by omega
  have hfirst := List.getElem?_eq_getElem hpos
  refine ⟨x, hr.of_recording, ?_⟩
  have hentry : (queue Prod.fst (.tcp (localhost 8080)) inheritingProc.ledger.inherited)[0]? =
      some (.tcp (localhost 8080), some 5) := rfl
  rw [hfirst, hhanded 0 _ _ _ hentry hfirst]

end

end Contention
