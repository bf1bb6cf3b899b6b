/-
# Titles to reusable names

General infrastructure: names of type `ι` that are given out and taken back again and
again, such as descriptor numbers or heap addresses, and owners of type `ω` that hold
them for a time.  Each time a name is given out it comes with a new title, so that two
uses of one name can be told apart; a release is recorded with the title that was
released and with who released it.

* `Titles.issue`, `Titles.transfer`, `Titles.release` : a name is given out, changes
  hands, is given back.
* `Titles.Valid` : titles are held once, no title is released twice, and every release
  was made by the owner of the title.
* `Titles.Complete` : no title is lost, so that each was released exactly once when none is
  held any more (`Complete.spent_perm`).
-/
import Mathlib

/-- A title: who holds the name, and which use of the name this is. -/
structure Title (ω : Type*) where
  owner : ω
  serial : ℕ

/-- A release: the name, who released it and the title it was released with, if any. -/
structure Release (ι ω : Type*) where
  name : ι
  actor : ω
  title : Option (Title ω)

/-- The titles that are held, how many have been issued, and the releases so far. -/
structure Titles (ι ω : Type*) where
  title : ι → Option (Title ω)
  issued : ℕ
  releases : List (Release ι ω)

namespace Titles

variable {ι ω : Type*} [DecidableEq ι] {T : Titles ι ω} {i j : ι} {o : ω}

/-- Who holds a name. -/
def owner (T : Titles ι ω) (i : ι) : Option ω := (T.title i).map Title.owner

/-- The name is given out. -/
def issue (T : Titles ι ω) (i : ι) (o : ω) : Titles ι ω :=
  { T with title := Function.update T.title i (some ⟨o, T.issued⟩), issued := T.issued + 1 }

/-- The name changes hands. -/
def transfer (T : Titles ι ω) (i : ι) (o : ω) : Titles ι ω :=
  { T with title := Function.update T.title i ((T.title i).map fun t => ⟨o, t.serial⟩) }

/-- The name is given back by `o`. -/
def release (T : Titles ι ω) (i : ι) (o : ω) : Titles ι ω :=
  { T with
    title := Function.update T.title i none
    releases := T.releases ++ [⟨i, o, T.title i⟩] }

/-- The titles that have been released, by number. -/
def spent (T : Titles ι ω) : List ℕ := T.releases.filterMap fun r => r.title.map Title.serial

/-! ## Who holds what -/

@[simp] theorem owner_issue_self : (T.issue i o).owner i = some o := by
  simp [owner, issue]

theorem owner_issue_of_ne (h : j ≠ i) : (T.issue i o).owner j = T.owner j := by
  simp [owner, issue, h]

theorem owner_transfer_of_ne (h : j ≠ i) : (T.transfer i o).owner j = T.owner j := by
  simp [owner, transfer, h]

@[simp] theorem owner_release_self : (T.release i o).owner i = none := by
  simp [owner, release]

theorem owner_release_of_ne (h : j ≠ i) : (T.release i o).owner j = T.owner j := by
  simp [owner, release, h]

/-! ## Validity -/

/-- Every title is held under one name, no title is released twice, and whoever releases a
name holds it. -/
structure Valid (T : Titles ι ω) : Prop where
  bound : ∀ i t, T.title i = some t → t.serial < T.issued
  unique : ∀ i j t u, T.title i = some t → T.title j = some u → t.serial = u.serial → i = j
  rightful : ∀ r ∈ T.releases, r.title.map Title.owner = some r.actor
  spent_lt : ∀ n ∈ T.spent, n < T.issued
  spent_ne : ∀ n ∈ T.spent, ∀ i t, T.title i = some t → t.serial ≠ n
  nodup : T.spent.Nodup

/-- A new title differs from all others. -/
theorem Valid.issue (hT : T.Valid) (i : ι) (o : ω) : (T.issue i o).Valid := by
  have hcases : ∀ j t, (T.issue i o).title j = some t →
      j = i ∧ t = ⟨o, T.issued⟩ ∨ j ≠ i ∧ T.title j = some t := by
    intro j t ht
    by_cases hj : j = i
    · subst hj
      simp only [Titles.issue, Function.update_self, Option.some.injEq] at ht
      exact .inl ⟨rfl, ht.symm⟩
    · simp only [Titles.issue, Function.update_of_ne hj] at ht
      exact .inr ⟨hj, ht⟩
  refine ⟨?_, ?_, hT.rightful, ?_, ?_, hT.nodup⟩
  · intro j t ht
    show t.serial < T.issued + 1
    rcases hcases j t ht with ⟨-, rfl⟩ | ⟨-, ht⟩
    · exact Nat.lt_succ_self _
    · exact Nat.lt_succ_of_lt (hT.bound j t ht)
  · intro j l t u ht hu heq
    rcases hcases j t ht with ⟨hj, ht'⟩ | ⟨-, ht'⟩ <;>
      rcases hcases l u hu with ⟨hl, hu'⟩ | ⟨-, hu'⟩
    · exact hj.trans hl.symm
    · have hlt := hT.bound l u hu'
      simp only [ht'] at heq
      omega
    · have hlt := hT.bound j t ht'
      simp only [hu'] at heq
      omega
    · exact hT.unique j l t u ht' hu' heq
  · intro n hn
    exact Nat.lt_succ_of_lt (hT.spent_lt n hn)
  · intro n hn j t ht
    rcases hcases j t ht with ⟨-, rfl⟩ | ⟨-, ht⟩
    · exact (hT.spent_lt n hn).ne'
    · exact hT.spent_ne n hn j t ht

/-- A name can change hands. -/
theorem Valid.transfer (hT : T.Valid) (i : ι) (o : ω) : (T.transfer i o).Valid := by
  have hcases : ∀ j t, (T.transfer i o).title j = some t →
      ∃ t', T.title j = some t' ∧ t'.serial = t.serial := by
    intro j t ht
    by_cases hj : j = i
    · subst hj
      simp only [Titles.transfer, Function.update_self] at ht
      obtain ⟨t', ht', rfl⟩ := Option.map_eq_some_iff.mp ht
      exact ⟨t', ht', rfl⟩
    · simp only [Titles.transfer, Function.update_of_ne hj] at ht
      exact ⟨t, ht, rfl⟩
  refine ⟨?_, ?_, hT.rightful, hT.spent_lt, ?_, hT.nodup⟩
  · intro j t ht
    obtain ⟨t', ht', hserial⟩ := hcases j t ht
    exact hserial ▸ hT.bound j t' ht'
  · intro j l t u ht hu heq
    obtain ⟨t', ht', hserial⟩ := hcases j t ht
    obtain ⟨u', hu', hserial'⟩ := hcases l u hu
    exact hT.unique j l t' u' ht' hu' (by omega)
  · intro n hn j t ht
    obtain ⟨t', ht', hserial⟩ := hcases j t ht
    exact hserial ▸ hT.spent_ne n hn j t' ht'

/-- The owner of a name can give it back. -/
theorem Valid.release (hT : T.Valid) (h : T.owner i = some o) : (T.release i o).Valid := by
  obtain ⟨t, ht, rfl⟩ := Option.map_eq_some_iff.mp h
  have hspent : (T.release i t.owner).spent = T.spent ++ [t.serial] := by
    simp [spent, Titles.release, ht]
  have hcases : ∀ j u, (T.release i t.owner).title j = some u → j ≠ i ∧ T.title j = some u := by
    intro j u hu
    by_cases hj : j = i
    · subst hj
      simp [Titles.release] at hu
    · simp only [Titles.release, Function.update_of_ne hj] at hu
      exact ⟨hj, hu⟩
  refine ⟨?_, ?_, ?_, ?_, ?_, ?_⟩
  · intro j u hu
    exact hT.bound j u (hcases j u hu).2
  · intro j l u v hu hv heq
    exact hT.unique j l u v (hcases j u hu).2 (hcases l v hv).2 heq
  · intro r hr
    rcases List.mem_append.mp hr with hr | hr
    · exact hT.rightful r hr
    · rw [List.mem_singleton.mp hr]
      exact h
  · intro n hn
    rw [hspent, List.mem_append, List.mem_singleton] at hn
    rcases hn with hn | rfl
    · exact hT.spent_lt n hn
    · exact hT.bound i t ht
  · intro n hn j u hu
    rw [hspent, List.mem_append, List.mem_singleton] at hn
    obtain ⟨hj, hu⟩ := hcases j u hu
    rcases hn with hn | rfl
    · exact hT.spent_ne n hn j u hu
    · exact fun heq => hj (hT.unique j i u t hu ht heq)
  · rw [hspent]
    refine List.nodup_append.mpr ⟨hT.nodup, List.nodup_singleton _, ?_⟩
    rintro n hn _ hm rfl
    rw [List.mem_singleton] at hm
    exact hT.spent_ne n hn i t ht hm.symm

/-! ## Completeness -/

/-- Every title that was issued is held or has been released. -/
def Complete (T : Titles ι ω) : Prop :=
  ∀ n < T.issued, n ∈ T.spent ∨ ∃ i t, T.title i = some t ∧ t.serial = n

/-- A new title for a name that has none. -/
theorem Complete.issue (hT : T.Complete) (hfree : T.title i = none) (o : ω) :
    (T.issue i o).Complete := by
  intro n hn
  rcases Nat.lt_succ_iff_lt_or_eq.mp hn with hn | rfl
  · rcases hT n hn with hspent | ⟨j, t, ht, hserial⟩
    · exact .inl hspent
    · have hj : j ≠ i := by
        rintro rfl
        rw [hfree] at ht
        cases ht
      exact .inr ⟨j, t, by simp [Titles.issue, hj, ht], hserial⟩
  · exact .inr ⟨i, ⟨o, T.issued⟩, by simp [Titles.issue], rfl⟩

theorem Complete.transfer (hT : T.Complete) (i : ι) (o : ω) : (T.transfer i o).Complete := by
  intro n hn
  rcases hT n hn with hspent | ⟨j, t, ht, hserial⟩
  · exact .inl hspent
  · by_cases hj : j = i
    · subst hj
      exact .inr ⟨j, ⟨o, t.serial⟩, by simp [Titles.transfer, ht], hserial⟩
    · exact .inr ⟨j, t, by simp [Titles.transfer, hj, ht], hserial⟩

theorem Complete.release (hT : T.Complete) (i : ι) (o : ω) : (T.release i o).Complete := by
  intro n hn
  have hspent : ∀ m ∈ T.spent, m ∈ (T.release i o).spent := by
    intro m hm
    rw [spent, Titles.release, List.filterMap_append]
    exact List.mem_append_left _ hm
  rcases hT n hn with hn | ⟨j, t, ht, hserial⟩
  · exact .inl (hspent n hn)
  · by_cases hj : j = i
    · subst hj
      refine .inl ?_
      simp [spent, Titles.release, ht, hserial]
    · exact .inr ⟨j, t, by simp [Titles.release, hj, ht], hserial⟩

omit [DecidableEq ι] in
/-- **When no title is held, every title was released exactly once.** -/
theorem Complete.spent_perm (hT : T.Complete) (hvalid : T.Valid)
    (hnone : ∀ i, T.title i = none) : T.spent.Perm (List.range T.issued) := by
  refine (List.perm_ext_iff_of_nodup hvalid.nodup List.nodup_range).mpr fun n => ?_
  rw [List.mem_range]
  refine ⟨hvalid.spent_lt n, fun hn => ?_⟩
  rcases hT n hn with hspent | ⟨i, t, ht, -⟩
  · exact hspent
  · rw [hnone] at ht
    cases ht

end Titles
