/-
# Ledgers: keyed resources handed from one owner to the next

General infrastructure.  An owner starts with a list of resources it has inherited,
each under a key, and keeps a list of the resources it uses.  A request for a key
claims the first inherited resource with that key, if there is one, and otherwise may
bring in a fresh one; what it obtains is entered among the resources in use, which are
what the next owner inherits.

`served` says that such an owner serves each key in order: as long as the inherited
resources have not been given up, the `j`-th request for `K` obtains the `j`-th
inherited resource for `K`, whatever requests are made for other keys in between, and
the resources in use for `K` are exactly those its requests obtained.

An exchange (`exchange`) takes the first inherited resource with a key and enters an
unrelated one under the same key.  `Exchanged` says that exchanges are served in order too:
the `j`-th obtains the `j`-th inherited resource for the key, and what is in use for the
key is what they entered.
-/
import Ecdysis.FirstMatch
import Ecdysis.TransitionSystem

open FirstMatch

/-- What is inherited and not claimed yet, and what is in use. -/
structure Ledger (κ φ : Type*) where
  inherited : List (κ × φ)
  used : List (κ × φ)

namespace Ledger

variable {κ φ : Type*} [BEq κ]

/-- The inherited resource a request for `k` finds. -/
def find (l : Ledger κ φ) (k : κ) : Option φ :=
  (l.inherited.find? fun e => e.1 == k).map Prod.snd

/-- Remove what `find` finds. -/
def take (l : Ledger κ φ) (k : κ) : Ledger κ φ :=
  { l with inherited := l.inherited.eraseP fun e => e.1 == k }

/-- Enter a resource among those in use. -/
def register (l : Ledger κ φ) (k : κ) (f : φ) : Ledger κ φ :=
  { l with used := l.used ++ [(k, f)] }

/-- What a request obtains. -/
inductive Answer (φ : Type*)
  | handed (f : φ)
  | fresh (f : φ)
  | refused
  deriving DecidableEq

/-- The resource obtained. -/
def Answer.resource : Answer φ → Option φ
  | .handed f | .fresh f => some f
  | .refused => none

/-- What an owner can do: request a key, a fresh resource being entered under the key
it turns out to have; replace what it inherited under a key; give up all it inherited
and did not claim. -/
inductive Event (κ φ : Type*)
  | request (k : κ) (fresh : Option (κ × φ))
  | replace (k : κ) (fresh : Option φ)
  | close

/-- An owner: its ledger, whether it has given up the unclaimed resources, and the
answers to its requests, in order. -/
structure Owner (κ φ : Type*) where
  ledger : Ledger κ φ
  closed : Bool
  log : List (κ × Answer φ)

/-- What a request obtains, and the ledger after it. -/
def request (l : Ledger κ φ) (k : κ) (fresh : Option (κ × φ)) : Answer φ × Ledger κ φ :=
  match l.find k with
  | some f => (.handed f, (l.take k).register k f)
  | none =>
    match fresh with
    | some (k', f) => (.fresh f, l.register k' f)
    | none => (.refused, l)

/-- One step of an owner. -/
def Owner.step (o : Owner κ φ) : Event κ φ → Option (Owner κ φ)
  | .request k fresh =>
    let r := o.ledger.request k fresh
    some { o with ledger := r.2, log := o.log ++ [(k, r.1)] }
  | .replace k fresh =>
    let l := o.ledger.take k
    some { o with ledger := match fresh with
      | some f => l.register k f
      | none => l }
  | .close => some { o with ledger := { o.ledger with inherited := [] }, closed := true }

/-- The owner that starts with the resources `inherited`. -/
def owner (inherited : List (κ × φ)) : TransitionSystem (Owner κ φ) (Event κ φ) where
  Init := fun o => o = ⟨⟨inherited, []⟩, false, []⟩
  step := Owner.step

/-- The answers to the requests for `k`, in order. -/
def Owner.answers (o : Owner κ φ) (k : κ) : List (Answer φ) :=
  (queue Prod.fst k o.log).map Prod.snd

/-- A step that keeps apart what concerns `K` and what does not: a fresh resource is
for `K` exactly when `K` was requested, and nothing under `K` is replaced. -/
def KeepsApart (K : κ) : Event κ φ → Prop
  | .request k fresh => ∀ k' f, fresh = some (k', f) → (k' == K) = (k == K)
  | .replace k _ => (k == K) = false
  | .close => True

/-- What an owner that started with `inherited` has obtained for `K`. -/
structure Owner.Served (inherited : List (κ × φ)) (K : κ) (o : Owner κ φ) : Prop where
  rest : o.closed = false →
    queue Prod.fst K o.ledger.inherited
      = (queue Prod.fst K inherited).drop (o.answers K).length
  handed : o.closed = false → ∀ (j : ℕ) (e : κ × φ) (a : Answer φ),
    (queue Prod.fst K inherited)[j]? = some e → (o.answers K)[j]? = some a → a = .handed e.2
  used : (queue Prod.fst K o.ledger.used).map Prod.snd
    = (o.answers K).filterMap Answer.resource

variable [EquivBEq κ] {K k : κ} {inherited : List (κ × φ)} {o o' : Owner κ φ}
  {l : Ledger κ φ} {fresh : Option (κ × φ)}

omit [EquivBEq κ] in
/-- There is nothing to take when nothing is found. -/
theorem take_of_find_eq_none (h : l.find k = none) : l.take k = l := by
  rw [find, Option.map_eq_none_iff, List.find?_eq_none] at h
  rw [take, List.eraseP_of_forall_not h]

omit [EquivBEq κ] in
theorem request_of_find_eq_some {f : φ} (h : l.find k = some f) :
    l.request k fresh = (.handed f, (l.take k).register k f) := by
  unfold request
  rw [h]

omit [EquivBEq κ] in
theorem request_of_find_eq_none (h : l.find k = none) :
    l.request k fresh = match fresh with
      | some (k', f) => (.fresh f, l.register k' f)
      | none => (.refused, l) := by
  unfold request
  rw [h]

omit [EquivBEq κ] in
/-- The two outcomes of a request. -/
theorem request_cases (l : Ledger κ φ) (k : κ) (fresh : Option (κ × φ)) :
    (∃ e, (queue Prod.fst k l.inherited).head? = some e ∧
      l.request k fresh = (.handed e.2, (l.take k).register k e.2)) ∨
    (queue Prod.fst k l.inherited = [] ∧
      ((∃ k' f, fresh = some (k', f) ∧ l.request k fresh = (.fresh f, l.register k' f)) ∨
        (fresh = none ∧ l.request k fresh = (.refused, l)))) := by
  have hfind : l.find k = (queue Prod.fst k l.inherited).head?.map Prod.snd := by
    rw [find, find?_eq_head?_queue]
  cases hq : queue Prod.fst k l.inherited with
  | nil =>
    right
    rw [hq] at hfind
    rw [request_of_find_eq_none hfind]
    rcases fresh with _ | ⟨k', f⟩
    · exact ⟨rfl, .inr ⟨rfl, rfl⟩⟩
    · exact ⟨rfl, .inl ⟨k', f, rfl, rfl⟩⟩
  | cons e q =>
    rw [hq] at hfind
    exact .inl ⟨e, rfl, request_of_find_eq_some hfind⟩

/-! ## Serving a key in order -/

omit [EquivBEq κ] in
@[simp] theorem queue_used_register (k' : κ) (f : φ) :
    queue Prod.fst K (l.register k' f).used
      = queue Prod.fst K l.used ++ if k' == K then [(k', f)] else [] := by
  rw [register, queue_append, queue_singleton]

/-- Claiming a key takes the head of its own queue. -/
theorem queue_take_of_beq (h : (k == K) = true) :
    queue Prod.fst K (l.take k).inherited = (queue Prod.fst K l.inherited).tail := by
  rw [← queue_congr h, ← queue_congr h]
  exact queue_eraseP_self

/-- Claiming a key does not touch the queue of another key. -/
theorem queue_take_of_not_beq (h : (k == K) = false) :
    queue Prod.fst K (l.take k).inherited = queue Prod.fst K l.inherited :=
  queue_eraseP_other h

omit [EquivBEq κ] in
/-- An answer for another key is not an answer for `K`. -/
theorem answers_append_of_not_beq {a : Answer φ} {l' : Ledger κ φ} (h : (k == K) = false) :
    Owner.answers { o with ledger := l', log := o.log ++ [(k, a)] } K = o.answers K := by
  simp [Owner.answers, queue_append, queue_singleton, h]

omit [EquivBEq κ] in
/-- An answer for `K` comes last. -/
theorem answers_append_of_beq {a : Answer φ} {l' : Ledger κ φ} (h : (k == K) = true) :
    Owner.answers { o with ledger := l', log := o.log ++ [(k, a)] } K = o.answers K ++ [a] := by
  simp [Owner.answers, queue_append, queue_singleton, h]

/-- A request for another key. -/
theorem Owner.Served.request_other (hI : o.Served inherited K) (hk : (k == K) = false)
    (hfresh : ∀ k' f, fresh = some (k', f) → (k' == K) = false) :
    Owner.Served inherited K { o with
      ledger := (o.ledger.request k fresh).2
      log := o.log ++ [(k, (o.ledger.request k fresh).1)] } := by
  have hq : queue Prod.fst K (o.ledger.request k fresh).2.inherited
        = queue Prod.fst K o.ledger.inherited ∧
      queue Prod.fst K (o.ledger.request k fresh).2.used = queue Prod.fst K o.ledger.used := by
    rcases request_cases o.ledger k fresh with
      ⟨e, _, he⟩ | ⟨_, ⟨k', f, hkf, he⟩ | ⟨_, he⟩⟩
    · rw [he]
      refine ⟨queue_take_of_not_beq hk, ?_⟩
      rw [queue_used_register, if_neg (by simp [hk]), List.append_nil]
      rfl
    · rw [he]
      refine ⟨rfl, ?_⟩
      rw [queue_used_register, if_neg (by simp [hfresh k' f hkf]), List.append_nil]
    · rw [he]
      exact ⟨rfl, rfl⟩
  refine ⟨fun hc => ?_, fun hc j e a he ha => ?_, ?_⟩
  · rw [answers_append_of_not_beq hk, hq.1]
    exact hI.rest hc
  · rw [answers_append_of_not_beq hk] at ha
    exact hI.handed hc j e a he ha
  · rw [answers_append_of_not_beq hk, hq.2]
    exact hI.used

/-- A request for `K` itself. -/
theorem Owner.Served.request_self (hI : o.Served inherited K) (hk : (k == K) = true)
    (hfresh : ∀ k' f, fresh = some (k', f) → (k' == K) = true) :
    Owner.Served inherited K { o with
      ledger := (o.ledger.request k fresh).2
      log := o.log ++ [(k, (o.ledger.request k fresh).1)] } := by
  set n := (o.answers K).length with hn
  rcases request_cases o.ledger k fresh with ⟨e, hhead, he⟩ | ⟨hnone, hor⟩
  -- an inherited resource is claimed: the head of what is left of the queue
  · rw [queue_congr hk] at hhead
    refine ⟨fun hc => ?_, fun hc j e' a he' ha => ?_, ?_⟩
    · rw [answers_append_of_beq hk, List.length_append, List.length_singleton, he]
      show queue Prod.fst K (o.ledger.take k).inherited = _
      rw [queue_take_of_beq hk, hI.rest hc, List.tail_drop]
    · rw [answers_append_of_beq hk, he] at ha
      rcases Nat.lt_or_ge j n with hj | hj
      · rw [List.getElem?_append_left hj] at ha
        exact hI.handed hc j e' a he' ha
      · obtain rfl : j = n := by
          have hlt := (List.getElem?_eq_some_iff.mp ha).1
          rw [List.length_append, List.length_singleton] at hlt
          omega
        rw [List.getElem?_concat_length, Option.some.injEq] at ha
        rw [hI.rest hc, List.head?_drop, he', Option.some.injEq] at hhead
        rw [← ha, hhead]
    · rw [answers_append_of_beq hk, List.filterMap_append, he, queue_used_register,
        if_pos hk, List.map_append]
      congr 1
      exact hI.used
  -- nothing is left under `K`: all answers so far have exhausted the queue
  · rw [queue_congr hk] at hnone
    have hinh : (o.ledger.request k fresh).2.inherited = o.ledger.inherited := by
      rcases hor with ⟨k', f, _, he⟩ | ⟨_, he⟩ <;> rw [he]
      rfl
    have hle : o.closed = false → (queue Prod.fst K inherited).length ≤ n := by
      intro hc
      have hrest := hI.rest hc
      rw [hnone] at hrest
      exact List.drop_eq_nil_iff.mp hrest.symm
    refine ⟨fun hc => ?_, fun hc j e' a he' ha => ?_, ?_⟩
    · rw [answers_append_of_beq hk, hinh, hnone, List.length_append, List.length_singleton]
      exact (List.drop_eq_nil_iff.mpr (Nat.le_succ_of_le (hle hc))).symm
    · rw [answers_append_of_beq hk] at ha
      have hj : j < n := lt_of_lt_of_le (List.getElem?_eq_some_iff.mp he').1 (hle hc)
      rw [List.getElem?_append_left hj] at ha
      exact hI.handed hc j e' a he' ha
    · rw [answers_append_of_beq hk, List.filterMap_append, ← hI.used]
      rcases hor with ⟨k', f, hkf, he⟩ | ⟨_, he⟩
      · rw [he, queue_used_register, if_pos (hfresh k' f hkf), List.map_append]
        rfl
      · rw [he]
        simp [Answer.resource]

/-- **Every key is served in order.** -/
theorem served (hr : (owner inherited).ReachableVia (fun _ => KeepsApart K) o) :
    o.Served inherited K := by
  refine hr.invariant ?_ ?_
  · rintro o rfl
    exact ⟨fun _ => rfl, fun _ _ _ _ _ h => (nomatch h), rfl⟩
  · intro o e o' _ hI hG hstep
    cases e with
    | request k fresh =>
      cases hstep
      cases hk : k == K
      · exact hI.request_other hk fun k' f hkf => (hG k' f hkf).trans hk
      · exact hI.request_self hk fun k' f hkf => (hG k' f hkf).trans hk
    | replace k fresh =>
      cases hstep
      have hk : (k == K) = false := hG
      refine ⟨fun hc => ?_, hI.handed, ?_⟩
      · cases fresh <;> exact (queue_take_of_not_beq hk).trans (hI.rest hc)
      · cases fresh with
        | none => exact hI.used
        | some f =>
          show (queue Prod.fst K ((o.ledger.take k).register k f).used).map Prod.snd = _
          rw [queue_used_register, if_neg (by simp [hk]), List.append_nil]
          exact hI.used
    | close =>
      cases hstep
      exact ⟨fun hc => (nomatch hc), fun hc => (nomatch hc), hI.used⟩

/-! ## Exchanging -/

/-- What two ledgers have under `K` is the same. -/
structure SameFor (K : κ) (l l' : Ledger κ φ) : Prop where
  inherited : queue Prod.fst K l'.inherited = queue Prod.fst K l.inherited
  used : queue Prod.fst K l'.used = queue Prod.fst K l.used

omit [EquivBEq κ] in
theorem SameFor.refl (K : κ) (l : Ledger κ φ) : SameFor K l l := ⟨rfl, rfl⟩

omit [EquivBEq κ] in
theorem SameFor.trans {l' l'' : Ledger κ φ} (h : SameFor K l l') (h' : SameFor K l' l'') :
    SameFor K l l'' :=
  ⟨h'.inherited.trans h.inherited, h'.used.trans h.used⟩

theorem sameFor_take (h : (k == K) = false) : SameFor K l (l.take k) :=
  ⟨queue_take_of_not_beq h, rfl⟩

omit [EquivBEq κ] in
theorem sameFor_register (h : (k == K) = false) (f : φ) : SameFor K l (l.register k f) := by
  refine ⟨rfl, ?_⟩
  rw [queue_used_register, h]
  simp

/-- Take what is inherited under `k`, and enter `fresh` under `k`, if there is one. -/
def exchange (l : Ledger κ φ) (k : κ) (fresh : Option φ) : Ledger κ φ :=
  match fresh with
  | some f => (l.take k).register k f
  | none => l.take k

/-- Exchanges under other keys do not matter. -/
theorem sameFor_exchange (h : (k == K) = false) (fresh : Option φ) :
    SameFor K l (l.exchange k fresh) := by
  cases fresh with
  | none => exact sameFor_take h
  | some f => exact (sameFor_take h).trans (sameFor_register h f)

/-- The ledger of an owner that started with `inherited` and whose exchanges for `K` have
obtained and entered what `log` says, in order. -/
structure Exchanged (inherited : List (κ × φ)) (K : κ) (l : Ledger κ φ) (closed : Bool)
    (log : List (Option φ × Option φ)) : Prop where
  rest : closed = false →
    queue Prod.fst K l.inherited = (queue Prod.fst K inherited).drop log.length
  obtained : closed = false → ∀ (j : ℕ) (x : Option φ × Option φ), log[j]? = some x →
    x.1 = (queue Prod.fst K inherited)[j]?.map Prod.snd
  entered : (queue Prod.fst K l.used).map Prod.snd = log.filterMap Prod.snd

variable {closed : Bool} {log : List (Option φ × Option φ)}

omit [EquivBEq κ] in
theorem exchanged_init : Exchanged inherited K ⟨inherited, []⟩ false [] :=
  ⟨fun _ => rfl, fun _ _ _ h => (nomatch h), rfl⟩

omit [EquivBEq κ] in
/-- Nothing happens under `K`. -/
theorem Exchanged.sameFor (h : Exchanged inherited K l closed log) {l' : Ledger κ φ}
    (hsame : SameFor K l l') : Exchanged inherited K l' closed log :=
  ⟨fun hc => hsame.inherited.trans (h.rest hc), h.obtained, by rw [hsame.used, h.entered]⟩

omit [EquivBEq κ] in
/-- The unclaimed resources are given up. -/
theorem Exchanged.close (h : Exchanged inherited K l closed log) :
    Exchanged inherited K { l with inherited := [] } true log :=
  ⟨fun hc => (nomatch hc), fun hc => (nomatch hc), h.entered⟩

/-- **An exchange under `K`** obtains the next inherited resource. -/
theorem Exchanged.exchange (h : Exchanged inherited K l closed log) (hk : (k == K) = true)
    (fresh : Option φ) :
    Exchanged inherited K (l.exchange k fresh) closed (log ++ [(l.find k, fresh)]) := by
  have hinh : (l.exchange k fresh).inherited = (l.take k).inherited := by
    cases fresh <;> rfl
  refine ⟨fun hc => ?_, fun hc j x hx => ?_, ?_⟩
  · rw [hinh, queue_take_of_beq hk, h.rest hc, List.tail_drop, List.length_append,
      List.length_singleton]
  · rcases Nat.lt_or_ge j log.length with hj | hj
    · rw [List.getElem?_append_left hj] at hx
      exact h.obtained hc j x hx
    · obtain rfl : j = log.length := by
        have hlt := (List.getElem?_eq_some_iff.mp hx).1
        rw [List.length_append, List.length_singleton] at hlt
        omega
      rw [List.getElem?_concat_length, Option.some.injEq] at hx
      rw [← hx, find, find?_eq_head?_queue, queue_congr hk, h.rest hc, List.head?_drop]
  · rw [List.filterMap_append, ← h.entered]
    cases fresh with
    | none => simp [Ledger.exchange, take]
    | some f =>
      show (queue Prod.fst K ((l.take k).register k f).used).map Prod.snd = _
      rw [queue_used_register, if_pos hk]
      simp [take]

/-! ## The keys in use -/

/-- All keys under which an event may enter a resource have the property `P`. -/
def Event.Keys (P : κ → Prop) : Event κ φ → Prop
  | .request k fresh => P k ∧ ∀ k' f, fresh = some (k', f) → P k'
  | .replace k _ => P k
  | .close => True

omit [EquivBEq κ] in
/-- Resources in use are under keys that were entered. -/
theorem keys_used {P : κ → Prop} {G : Owner κ φ → Event κ φ → Prop}
    (hG : ∀ o e, G o e → e.Keys P) (hr : (owner inherited).ReachableVia G o) :
    ∀ x ∈ o.ledger.used, P x.1 := by
  have hregister : ∀ (l : Ledger κ φ) (k : κ) (f : φ), (∀ x ∈ l.used, P x.1) → P k →
      ∀ x ∈ (l.register k f).used, P x.1 := by
    intro l k f hl hk x hx
    rcases List.mem_append.mp hx with hx | hx
    · exact hl x hx
    · rw [List.mem_singleton.mp hx]
      exact hk
  refine hr.invariant (I := fun o => ∀ x ∈ o.ledger.used, P x.1) ?_ ?_
  · rintro o rfl x hx
    cases hx
  · intro o e o' _ hI hg hstep
    cases e with
    | request k fresh =>
      cases hstep
      obtain ⟨hk, hfresh⟩ := hG o _ hg
      rcases request_cases o.ledger k fresh with ⟨e, _, he⟩ | ⟨_, ⟨k', f, hkf, he⟩ | ⟨_, he⟩⟩
      · rw [he]
        exact hregister (o.ledger.take k) k e.2 hI hk
      · rw [he]
        exact hregister _ k' f hI (hfresh k' f hkf)
      · rw [he]
        exact hI
    | replace k fresh =>
      cases hstep
      cases fresh with
      | none => exact hI
      | some f => exact hregister (o.ledger.take k) k f hI (hG o _ hg)
    | close =>
      cases hstep
      exact hI

end Ledger
