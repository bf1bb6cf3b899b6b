/-
# Lines of succession

General infrastructure: parties that start others in their place.  A party is named by the
attempts that led to it, the last one first, so that `n :: a` is the party started by the
attempt `n` of `a`, and `a` descends from `b` when `b` is a suffix of `a`.

* `fork` : two parties stand on one line of descent, or their lines part at some party.
* `Succession` : what a family of parties has to keep so that at most one of them acts at a
  time; `Succession.one_line` is the result.
* `Line` : the parties to which everything has been passed on, one after the other, from
  the first one; `exists_last` finds the one that has not passed it on.
-/
import Mathlib.Data.List.Infix
import Mathlib.Tactic.ByContra
import Mathlib.Tactic.Push

namespace Succession

variable {a b : List ℕ}

/-! ## Descent -/

/-- A party that descends from `a` is `a` itself or descends from a child of `a`. -/
theorem eq_or_child_suffix (h : a <:+ b) : a = b ∨ ∃ n, n :: a <:+ b := by
  obtain ⟨ext, rfl⟩ := h
  rcases List.eq_nil_or_concat ext with rfl | ⟨ext, n, rfl⟩
  · exact .inl rfl
  · right
    refine ⟨n, ext, ?_⟩
    simp

/-- **Two parties stand on one line, or their lines part**: at `p`, whose attempts `m` and
`n` they descend from. -/
theorem fork (a b : List ℕ) :
    a <:+ b ∨ b <:+ a ∨ ∃ p m n, m ≠ n ∧ m :: p <:+ a ∧ n :: p <:+ b := by
  induction a with
  | nil => exact .inl List.nil_suffix
  | cons x a ih =>
    rcases ih with hab | hba | ⟨p, m, n, hne, hm, hn⟩
    · rcases eq_or_child_suffix hab with rfl | ⟨y, hy⟩
      · exact .inr (.inl (List.suffix_cons x a))
      · by_cases hxy : x = y
        · subst hxy
          exact .inl hy
        · exact .inr (.inr ⟨a, x, y, hxy, List.suffix_refl _, hy⟩)
    · exact .inr (.inl (hba.trans (List.suffix_cons x a)))
    · exact .inr (.inr ⟨p, m, n, hne, hm.trans (List.suffix_cons x a), hn⟩)

end Succession

/-! ## At most one party acts -/

/-- A family of parties.  `present` have been started, `serves` are those that may act,
`awaits a n` says that `a` leaves acting to its attempt `n` for now, and `failed a n` that
`a` has given that attempt up. -/
structure Succession where
  present : List ℕ → Prop
  serves : List ℕ → Prop
  awaits : List ℕ → ℕ → Prop
  failed : List ℕ → ℕ → Prop
  /-- Parties are started by parties. -/
  parent : ∀ {n a}, present (n :: a) → present a
  serves_present : ∀ {a}, serves a → present a
  /-- A party that serves has given up its attempts, but the one it awaits. -/
  settled : ∀ {a n}, serves a → present (n :: a) → awaits a n ∨ failed a n
  /-- There is a further attempt only when the earlier ones have been given up. -/
  earlier : ∀ {a m n}, present (m :: a) → present (n :: a) → m < n → failed a m
  /-- What has been given up does not serve, and has no attempts of its own. -/
  gone : ∀ {a n}, failed a n → ¬ serves (n :: a)
  childless : ∀ {a n m}, failed a n → ¬ present (m :: n :: a)

namespace Succession

variable {S : Succession} {a b : List ℕ} {n : ℕ}

/-- All parties on the line of one that has been started have been started. -/
theorem present_of_suffix (h : a <:+ b) (hb : S.present b) : S.present a := by
  obtain ⟨ext, rfl⟩ := h
  induction ext with
  | nil => exact hb
  | cons x ext ih => exact ih (S.parent hb)

/-- Nothing that descends from an attempt that has been given up serves. -/
theorem not_serves_of_failed (hfailed : S.failed a n) (h : n :: a <:+ b) : ¬ S.serves b := by
  intro hb
  rcases eq_or_child_suffix h with rfl | ⟨m, hm⟩
  · exact S.gone hfailed hb
  · exact S.childless hfailed (present_of_suffix hm (S.serves_present hb))

/-- A party that serves, and from which another one that serves descends, awaits the attempt
on the line between them. -/
theorem awaits_of_suffix (ha : S.serves a) (hb : S.serves b) (h : n :: a <:+ b) :
    S.awaits a n := by
  rcases S.settled ha (present_of_suffix h (S.serves_present hb)) with hawaits | hfailed
  · exact hawaits
  · exact absurd hb (not_serves_of_failed hfailed h)

/-- **At most one party acts.**  Two parties that serve stand on one line of descent, and
the elder awaits the attempt from which the younger descends. -/
theorem one_line (ha : S.serves a) (hb : S.serves b) :
    a = b ∨ (∃ n, n :: a <:+ b ∧ S.awaits a n) ∨ ∃ n, n :: b <:+ a ∧ S.awaits b n := by
  rcases fork a b with hab | hba | ⟨p, m, n, hne, hm, hn⟩
  · rcases eq_or_child_suffix hab with heq | ⟨n, hn⟩
    · exact .inl heq
    · exact .inr (.inl ⟨n, hn, awaits_of_suffix ha hb hn⟩)
  · rcases eq_or_child_suffix hba with heq | ⟨n, hn⟩
    · exact .inl heq.symm
    · exact .inr (.inr ⟨n, hn, awaits_of_suffix hb ha hn⟩)
  · have hpm := present_of_suffix hm (S.serves_present ha)
    have hpn := present_of_suffix hn (S.serves_present hb)
    -- of two attempts of `p`, the earlier one has been given up
    rcases Nat.lt_or_gt_of_ne hne with hlt | hlt
    · exact absurd ha (not_serves_of_failed (S.earlier hpm hpn hlt) hm)
    · exact absurd hb (not_serves_of_failed (S.earlier hpn hpm hlt) hn)

/-! ## To whom everything has been passed on -/

/-- The parties to which everything has been passed on, from the first one. -/
inductive Line (passes : List ℕ → ℕ → Prop) : List ℕ → Prop
  | root : Line passes []
  | next {a : List ℕ} {n : ℕ} : Line passes a → passes a n → Line passes (n :: a)

/-- As long as the line is of bounded length, somebody has not passed it on. -/
theorem exists_last {passes : List ℕ → ℕ → Prop} {N : ℕ}
    (hbound : ∀ a, Line passes a → a.length ≤ N) : ∃ a, Line passes a ∧ ∀ n, ¬ passes a n := by
  by_contra hnone
  push Not at hnone
  have hlong : ∀ k, ∃ a, Line passes a ∧ a.length = k := by
    intro k
    induction k with
    | zero => exact ⟨[], .root, rfl⟩
    | succ k ih =>
      obtain ⟨a, ha, hlen⟩ := ih
      obtain ⟨n, hn⟩ := hnone a ha
      exact ⟨n :: a, ha.next hn, by simp [hlen]⟩
  obtain ⟨a, ha, hlen⟩ := hlong (N + 1)
  have := hbound a ha
  omega

end Succession
