/-
# What one component holds of a shared table

General infrastructure: a table of names (`DescriptorTable`) that several parties open and
close entries of, one of which keeps titles (`Ownership`) to the names it has opened.
`Accounts T now others L` says that the table `now` is what the others have made of it,
`others`, with the names of the list `L` opened in addition, and that the titles `T` say the
same, with the owner of each name.

* The rules say what each operation of the party (`issue`, `release`, `transfer`, `rewrite`)
  and of the others (`assign_other`, `close_other`) does to the list.
* `Accounts.settled` : when the list is empty, the table is the others' and every title has
  been released exactly once, by its owner.
-/
import Ecdysis.DescriptorTable
import Ecdysis.Ownership

variable {F D ω : Type*}

/-- The party holds the names of `L`, each by its owner, and nothing else. -/
structure Accounts (T : Titles F ω) (now others : DescriptorTable F D) (L : List (F × ω)) :
    Prop where
  valid : T.Valid
  complete : T.Complete
  nodup : (L.map Prod.fst).Nodup
  owner : ∀ fd o, T.owner fd = some o ↔ (fd, o) ∈ L
  held : ∀ fd ∈ L.map Prod.fst, (now fd).isSome ∧ others fd = none
  same : ∀ fd, fd ∉ L.map Prod.fst → now fd = others fd

namespace Accounts

variable {T : Titles F ω} {now others : DescriptorTable F D} {L L' : List (F × ω)} {fd : F}
  {o : ω}

/-- Nothing is held at the start. -/
theorem start (t : DescriptorTable F D) :
    Accounts (⟨fun _ => none, 0, []⟩ : Titles F ω) t t [] := by
  refine ⟨⟨?_, ?_, ?_, ?_, ?_, ?_⟩, ?_, ?_, ?_, ?_, ?_⟩ <;>
    simp [Titles.spent, Titles.owner, Titles.Complete]

theorem perm (h : Accounts T now others L) (hL : L.Perm L') : Accounts T now others L' :=
  ⟨h.valid, h.complete, (hL.map Prod.fst).nodup_iff.mp h.nodup,
    fun fd o => (h.owner fd o).trans hL.mem_iff,
    fun fd hfd => h.held fd ((hL.map Prod.fst).mem_iff.mpr hfd),
    fun fd hfd => h.same fd fun hmem => hfd ((hL.map Prod.fst).mem_iff.mp hmem)⟩

/-- A name that is not open is not held. -/
theorem not_mem_of_free (h : Accounts T now others L) (hfree : now fd = none) :
    fd ∉ L.map Prod.fst := by
  intro hmem
  have hopen := (h.held fd hmem).1
  rw [hfree] at hopen
  cases hopen

/-- A name without an owner is not held. -/
theorem not_mem_of_owner (h : Accounts T now others L) (hnone : T.owner fd = none) :
    fd ∉ L.map Prod.fst := by
  intro hmem
  obtain ⟨⟨fd', o⟩, hpair, rfl⟩ := List.mem_map.mp hmem
  rw [(h.owner fd' o).mpr hpair] at hnone
  cases hnone

/-- The first name is held once. -/
theorem head_not_mem (h : Accounts T now others ((fd, o) :: L)) : fd ∉ L.map Prod.fst :=
  (List.nodup_cons.mp h.nodup).1

/-- The owners, once they are known of one name and of all others. -/
theorem owner_cons (hfd : fd ∉ L.map Prod.fst) (hself : T.owner fd = some o)
    (hother : ∀ fd' ≠ fd, ∀ o', T.owner fd' = some o' ↔ (fd', o') ∈ L) (fd' : F) (o' : ω) :
    T.owner fd' = some o' ↔ (fd', o') ∈ (fd, o) :: L := by
  by_cases heq : fd' = fd
  · subst heq
    have hnot : (fd', o') ∉ L := fun hmem => hfd (List.mem_map_of_mem hmem)
    simp [hself, hnot, eq_comm]
  · simp [hother fd' heq o', heq]

/-- **Settled accounts**: the table is what the others have made of it, and every title has
been released exactly once, by its owner. -/
theorem settled (h : Accounts T now others []) :
    now = others ∧ T.spent.Perm (List.range T.issued) ∧
      ∀ r ∈ T.releases, r.title.map Title.owner = some r.actor := by
  have hnone : ∀ fd, T.title fd = none := by
    intro fd
    cases ht : T.title fd with
    | none => rfl
    | some t => simpa using (h.owner fd t.owner).mp (by simp [Titles.owner, ht])
  exact ⟨funext fun fd => h.same fd (by simp), h.complete.spent_perm h.valid hnone,
    h.valid.rightful⟩

/-! ## Operations -/

variable [DecidableEq F]

/-- The party opens a name that is free. -/
theorem issue (h : Accounts T now others L) (hfree : now fd = none) (o : ω) (d : D) :
    Accounts (T.issue fd o) (now.assign fd d) others ((fd, o) :: L) := by
  have hfd := h.not_mem_of_free hfree
  have htitle : T.title fd = none := by
    cases ht : T.title fd with
    | none => rfl
    | some t =>
      have hmem := (h.owner fd t.owner).mp (by simp [Titles.owner, ht])
      exact absurd (List.mem_map_of_mem hmem) hfd
  refine ⟨h.valid.issue fd o, h.complete.issue htitle o, List.nodup_cons.mpr ⟨hfd, h.nodup⟩,
    owner_cons hfd Titles.owner_issue_self fun fd' hne o' => ?_, fun fd' hmem => ?_,
    fun fd' hnot => ?_⟩
  · rw [Titles.owner_issue_of_ne hne]
    exact h.owner fd' o'
  · by_cases heq : fd' = fd
    · subst heq
      exact ⟨by simp, (h.same fd' hfd).symm.trans hfree⟩
    · rw [DescriptorTable.assign_of_ne _ heq]
      exact h.held fd' (by simpa [heq] using hmem)
  · rw [List.map_cons, List.mem_cons, not_or] at hnot
    rw [DescriptorTable.assign_of_ne _ hnot.1]
    exact h.same fd' hnot.2

/-- The owner of a name closes it. -/
theorem release (h : Accounts T now others ((fd, o) :: L)) :
    Accounts (T.release fd o) (now.close fd) others L := by
  have hfd := h.head_not_mem
  have hne : ∀ fd' ∈ L.map Prod.fst, fd' ≠ fd := fun fd' hmem heq => hfd (heq ▸ hmem)
  refine ⟨h.valid.release ((h.owner fd o).mpr List.mem_cons_self), h.complete.release fd o,
    (List.nodup_cons.mp h.nodup).2, fun fd' o' => ?_, fun fd' hmem => ?_, fun fd' hnot => ?_⟩
  · by_cases heq : fd' = fd
    · subst heq
      have hnot : (fd', o') ∉ L := fun hmem => hfd (List.mem_map_of_mem hmem)
      simp [hnot]
    · rw [Titles.owner_release_of_ne heq, h.owner fd' o']
      simp [heq]
  · rw [DescriptorTable.close_of_ne _ (hne fd' hmem)]
    exact h.held fd' (List.mem_cons_of_mem _ hmem)
  · by_cases heq : fd' = fd
    · subst heq
      rw [DescriptorTable.close_self, (h.held fd' List.mem_cons_self).2]
    · rw [DescriptorTable.close_of_ne _ heq]
      exact h.same fd' (by simpa [heq] using hnot)

/-- A name changes hands. -/
theorem transfer (h : Accounts T now others ((fd, o) :: L)) (o' : ω) :
    Accounts (T.transfer fd o') now others ((fd, o') :: L) := by
  obtain ⟨t, ht, -⟩ := Option.map_eq_some_iff.mp ((h.owner fd o).mpr List.mem_cons_self)
  refine ⟨h.valid.transfer fd o', h.complete.transfer fd o', h.nodup,
    owner_cons h.head_not_mem (by simp [Titles.owner, Titles.transfer, ht]) fun fd' hne o'' => ?_,
    h.held, h.same⟩
  rw [Titles.owner_transfer_of_ne hne, h.owner fd' o'']
  simp [hne]

/-- The party changes the entry of a name that it holds. -/
theorem rewrite (h : Accounts T now others L) (hfd : fd ∈ L.map Prod.fst) (d : D) :
    Accounts T (now.assign fd d) others L := by
  refine ⟨h.valid, h.complete, h.nodup, h.owner, fun fd' hmem => ⟨?_, (h.held fd' hmem).2⟩,
    fun fd' hnot => ?_⟩
  · by_cases heq : fd' = fd
    · simp [heq]
    · rw [DescriptorTable.assign_of_ne _ heq]
      exact (h.held fd' hmem).1
  · have hne : fd' ≠ fd := fun heq => hnot (heq ▸ hfd)
    rw [DescriptorTable.assign_of_ne _ hne]
    exact h.same fd' hnot

/-- A name without an owner gets the same entry in both tables. -/
theorem change_other {now' others' : DescriptorTable F D} (h : Accounts T now others L)
    (hnone : T.owner fd = none) (hnow : ∀ fd' ≠ fd, now' fd' = now fd')
    (hothers : ∀ fd' ≠ fd, others' fd' = others fd') (hsame : now' fd = others' fd) :
    Accounts T now' others' L := by
  have hfd := h.not_mem_of_owner hnone
  refine ⟨h.valid, h.complete, h.nodup, h.owner, fun fd' hmem => ?_, fun fd' hnot => ?_⟩
  · have hne : fd' ≠ fd := fun heq => hfd (heq ▸ hmem)
    rw [hnow fd' hne, hothers fd' hne]
    exact h.held fd' hmem
  · by_cases heq : fd' = fd
    · rw [heq, hsame]
    · rw [hnow fd' heq, hothers fd' heq]
      exact h.same fd' hnot

/-- The others assign an entry to a name that is not the party's. -/
theorem assign_other (h : Accounts T now others L) (hnone : T.owner fd = none) (d : D) :
    Accounts T (now.assign fd d) (others.assign fd d) L :=
  h.change_other hnone (fun _ hne => now.assign_of_ne hne d)
    (fun _ hne => others.assign_of_ne hne d) (by simp)

/-- The others close a name that is not the party's. -/
theorem close_other (h : Accounts T now others L) (hnone : T.owner fd = none) :
    Accounts T (now.close fd) (others.close fd) L :=
  h.change_other hnone (fun _ hne => now.close_of_ne hne) (fun _ hne => others.close_of_ne hne)
    (by simp)

end Accounts
