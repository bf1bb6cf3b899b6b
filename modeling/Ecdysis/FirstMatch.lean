/-
# First-match removal and the queues it induces

General infrastructure: a list searched by key with first match and removal
(`find?` and `eraseP`) is, key by key, a first-in first-out queue.  `queue f k l` is
the queue of a key: taking the first match of `k` removes its head
(`queue_eraseP_self`) and does not touch the queue of another key
(`queue_eraseP_other`), whatever the order in which keys are taken.  Keys are compared
by a `BEq` that is an equivalence.
-/
import Mathlib

namespace FirstMatch

variable {α κ : Type*} [BEq κ] [EquivBEq κ] {f : α → κ} {k k' : κ} {l : List α}

/-- The elements with key `k`, in order. -/
def queue (f : α → κ) (k : κ) (l : List α) : List α := l.filter fun a => f a == k

omit [EquivBEq κ] in
@[simp] theorem queue_nil : queue f k [] = [] := rfl

omit [EquivBEq κ] in
theorem queue_append (l m : List α) : queue f k (l ++ m) = queue f k l ++ queue f k m :=
  List.filter_append ..

omit [EquivBEq κ] in
theorem queue_singleton (a : α) : queue f k [a] = if f a == k then [a] else [] := by
  cases h : f a == k <;> simp [queue, h]

omit [EquivBEq κ] in
/-- The first match is the head of the queue. -/
theorem find?_eq_head?_queue : (l.find? fun a => f a == k) = (queue f k l).head? := by
  rw [queue, List.head?_filter]

/-- Equal keys have the same queue. -/
theorem queue_congr (h : (k == k') = true) : queue f k l = queue f k' l := by
  unfold queue
  congr 1
  funext a
  exact BEq.congr_right h

omit [EquivBEq κ] in
/-- Taking the first match of a key removes the head of its queue. -/
theorem queue_eraseP_self : queue f k (l.eraseP fun a => f a == k) = (queue f k l).tail := by
  induction l with
  | nil => rfl
  | cons a l ih =>
    cases h : f a == k
    · rw [List.eraseP_cons_of_neg (by simp [h])]
      simp only [queue, List.filter_cons, h] at ih ⊢
      simpa using ih
    · rw [List.eraseP_cons_of_pos (p := fun a => f a == k) h]
      simp [queue, h]

/-- Taking the first match of a key leaves the queue of another key alone. -/
theorem queue_eraseP_other (h : (k == k') = false) :
    queue f k' (l.eraseP fun a => f a == k) = queue f k' l := by
  induction l with
  | nil => rfl
  | cons a l ih =>
    cases ha : f a == k
    · rw [List.eraseP_cons_of_neg (by simp [ha])]
      unfold queue at ih ⊢
      rw [List.filter_cons, List.filter_cons, ih]
    · rw [List.eraseP_cons_of_pos (p := fun a => f a == k) ha]
      have hak' : (f a == k') = false := by
        rw [BEq.congr_left ha, h]
      simp [queue, hak']

/-- When all keys differ, the queue of a key that occurs has one element. -/
theorem queue_eq_singleton {a : α} (hl : l.Pairwise fun a b => (f a == f b) = false)
    (ha : a ∈ l) (hk : (f a == k) = true) : queue f k l = [a] := by
  induction l with
  | nil => cases ha
  | cons b l ih =>
    obtain ⟨hb, hl⟩ := List.pairwise_cons.mp hl
    rcases List.mem_cons.mp ha with rfl | ha
    · have hrest : queue f k l = [] := by
        refine List.filter_eq_nil_iff.mpr fun x hx hxk => ?_
        have hax : (f a == f x) = true := BEq.trans hk (BEq.symm hxk)
        rw [hb x hx] at hax
        cases hax
      rw [queue, List.filter_cons, if_pos hk]
      exact congrArg (a :: ·) hrest
    · have hbk : (f b == k) = false := by
        rw [← hb a ha]
        exact (BEq.congr_right hk).symm
      rw [queue, List.filter_cons_of_neg (by simp [hbk])]
      exact ih hl ha

/-- Taking the first match out leaves the other elements. -/
theorem perm_cons_eraseP {p : α → Bool} {a : α} (h : l.find? p = some a) :
    l.Perm (a :: l.eraseP p) := by
  obtain ⟨ha, l₁, l₂, rfl, hl₁⟩ := List.find?_eq_some_iff_append.mp h
  have hl₁' : ∀ b ∈ l₁, ¬ p b = true := fun b hb => by simpa using hl₁ b hb
  rw [List.eraseP_append_right _ hl₁', List.eraseP_cons_of_pos ha]
  exact List.perm_middle

variable {β : Type*} {R : α → β → Prop} {m : List β}

omit [BEq κ] [EquivBEq κ] in
/-- Every element of the first list is related to one of the second. -/
theorem exists_of_sublistForall₂ (h : List.SublistForall₂ R l m) {a : α} (ha : a ∈ l) :
    ∃ b ∈ m, R a b := by
  induction h with
  | nil => cases ha
  | cons hab _ ih =>
    rcases List.mem_cons.mp ha with rfl | ha
    · exact ⟨_, List.mem_cons_self, hab⟩
    · obtain ⟨b, hb, hr⟩ := ih ha
      exact ⟨b, List.mem_cons_of_mem _ hb, hr⟩
  | cons_right _ ih =>
    obtain ⟨b, hb, hr⟩ := ih ha
    exact ⟨b, List.mem_cons_of_mem _ hb, hr⟩

omit [BEq κ] [EquivBEq κ] in
/-- What holds between any two elements of the second list is carried over to the first. -/
theorem pairwise_of_sublistForall₂ {S : β → β → Prop} {T : α → α → Prop}
    (h : List.SublistForall₂ R l m) (hST : ∀ a b x y, R a x → R b y → S x y → T a b)
    (hm : m.Pairwise S) : l.Pairwise T := by
  induction h with
  | nil => exact .nil
  | cons hax hlm ih =>
    obtain ⟨hx, hm⟩ := List.pairwise_cons.mp hm
    refine List.pairwise_cons.mpr ⟨fun b hb => ?_, ih hm⟩
    obtain ⟨y, hy, hby⟩ := exists_of_sublistForall₂ hlm hb
    exact hST _ _ _ _ hax hby (hx y hy)
  | cons_right _ ih => exact ih (List.pairwise_cons.mp hm).2

end FirstMatch
