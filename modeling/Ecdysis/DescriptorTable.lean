/-
# Descriptor tables

General infrastructure: the table of a process that says what each descriptor number
in use refers to, over an arbitrary type of numbers `F` and of descriptors `D`.  The
numbers the system may hand out are a list `slots`, in ascending order.

* `lowestFree slots t m` : the lowest free number not below `m`, what duplicating a
  descriptor with a lower bound and (with the least `m`) opening a file return;
* `close`, `closeAll`, `assign` : what closing and opening do to the table.
* `Sorts flag E S` : the numbers of `E` and `S` are distinct and open, those of `S` with
  the flag and those of `E` without it.
-/
import Mathlib

/-- What each number in use refers to. -/
def DescriptorTable (F D : Type*) := F → Option D

namespace DescriptorTable

variable {F D : Type*} [DecidableEq F]

/-- Make `fd` refer to `d`. -/
def assign (t : DescriptorTable F D) (fd : F) (d : D) : DescriptorTable F D :=
  Function.update t fd (some d)

/-- Free the number `fd`. -/
def close (t : DescriptorTable F D) (fd : F) : DescriptorTable F D :=
  Function.update t fd none

/-- Free all numbers of a list, in order. -/
def closeAll (t : DescriptorTable F D) (fds : List F) : DescriptorTable F D :=
  fds.foldl close t

@[simp] theorem assign_self (t : DescriptorTable F D) (fd : F) (d : D) :
    t.assign fd d fd = some d := Function.update_self ..

@[simp] theorem assign_of_ne (t : DescriptorTable F D) {fd fd' : F} (h : fd' ≠ fd) (d : D) :
    t.assign fd d fd' = t fd' := Function.update_of_ne h ..

@[simp] theorem close_self (t : DescriptorTable F D) (fd : F) : t.close fd fd = none :=
  Function.update_self ..

@[simp] theorem close_of_ne (t : DescriptorTable F D) {fd fd' : F} (h : fd' ≠ fd) :
    t.close fd fd' = t fd' := Function.update_of_ne h ..

/-- Closing a list frees its members and leaves the rest. -/
theorem closeAll_apply (t : DescriptorTable F D) (fds : List F) (fd : F) :
    t.closeAll fds fd = if fd ∈ fds then none else t fd := by
  induction fds generalizing t with
  | nil => simp [closeAll]
  | cons fd' fds ih =>
    have hfold : t.closeAll (fd' :: fds) = (t.close fd').closeAll fds := rfl
    rw [hfold, ih]
    by_cases hmem : fd ∈ fds
    · simp [hmem]
    · by_cases heq : fd = fd'
      · simp [heq]
      · simp [hmem, heq]

/-! ## Open numbers sorted by a flag -/

/-- The numbers in the two lists are distinct and open: those of `E` (exposed) refer to
descriptors without the flag, those of `S` (shielded) to descriptors with it. -/
structure Sorts (flag : D → Bool) (t : DescriptorTable F D) (E S : List F) : Prop where
  nodup : (E ++ S).Nodup
  exposed : ∀ fd ∈ E, ∃ d, t fd = some d ∧ flag d = false
  shielded : ∀ fd ∈ S, ∃ d, t fd = some d ∧ flag d = true

namespace Sorts

variable {flag : D → Bool} {t t' : DescriptorTable F D} {E E' S S' L : List F} {fd : F} {d : D}

omit [DecidableEq F] in
/-- The order of the lists does not matter. -/
theorem perm (h : t.Sorts flag E S) (hE : E.Perm E') (hS : S.Perm S') : t.Sorts flag E' S' :=
  ⟨(hE.append hS).nodup_iff.mp h.nodup, fun fd hfd => h.exposed fd (hE.mem_iff.mpr hfd),
    fun fd hfd => h.shielded fd (hS.mem_iff.mpr hfd)⟩

omit [DecidableEq F] in
/-- What is sorted is open. -/
theorem isOpen (h : t.Sorts flag E S) (hfd : fd ∈ E ++ S) : ∃ d, t fd = some d := by
  rcases List.mem_append.mp hfd with hfd | hfd
  · obtain ⟨d, hd, -⟩ := h.exposed fd hfd
    exact ⟨d, hd⟩
  · obtain ⟨d, hd, -⟩ := h.shielded fd hfd
    exact ⟨d, hd⟩

omit [DecidableEq F] in
/-- A free number is not among them. -/
theorem not_mem_of_free (h : t.Sorts flag E S) (hfree : t fd = none) : fd ∉ E ++ S := by
  intro hmem
  obtain ⟨d, hd⟩ := h.isOpen hmem
  rw [hfree] at hd
  cases hd

omit [DecidableEq F] in
/-- A table that agrees on the numbers of the lists. -/
theorem congr (h : t.Sorts flag E S) (heq : ∀ fd ∈ E ++ S, t' fd = t fd) :
    t'.Sorts flag E S := by
  refine ⟨h.nodup, fun fd hfd => ?_, fun fd hfd => ?_⟩
  · rw [heq fd (List.mem_append_left _ hfd)]
    exact h.exposed fd hfd
  · rw [heq fd (List.mem_append_right _ hfd)]
    exact h.shielded fd hfd

omit [DecidableEq F] in
/-- Fewer numbers. -/
theorem sublist {A B : List F} (h : t.Sorts flag E S) (hE : A.Sublist E) (hS : B.Sublist S) :
    t.Sorts flag A B :=
  ⟨h.nodup.sublist (hE.append hS), fun fd hfd => h.exposed fd (hE.subset hfd),
    fun fd hfd => h.shielded fd (hS.subset hfd)⟩

omit [DecidableEq F] in
theorem tail_exposed (h : t.Sorts flag (fd :: E) S) : t.Sorts flag E S :=
  h.sublist (List.sublist_cons_self fd E) (.refl S)

omit [DecidableEq F] in
theorem tail_shielded (h : t.Sorts flag E (fd :: S)) : t.Sorts flag E S :=
  h.sublist (.refl E) (List.sublist_cons_self fd S)

/-- What happens to other numbers does not matter. -/
theorem assign_of_not_mem (h : t.Sorts flag E S) (hfd : fd ∉ E ++ S) (d : D) :
    (t.assign fd d).Sorts flag E S :=
  h.congr fun _ hmem => t.assign_of_ne (ne_of_mem_of_not_mem hmem hfd) d

theorem close_of_not_mem (h : t.Sorts flag E S) (hfd : fd ∉ E ++ S) :
    (t.close fd).Sorts flag E S :=
  h.congr fun _ hmem => t.close_of_ne (ne_of_mem_of_not_mem hmem hfd)

/-- A number that is not among them comes to refer to a descriptor with the flag. -/
theorem assign_shielded (h : t.Sorts flag E S) (hfd : fd ∉ E ++ S) (hd : flag d = true) :
    (t.assign fd d).Sorts flag E (fd :: S) := by
  have hrest := h.assign_of_not_mem hfd d
  refine ⟨List.nodup_middle.mpr (List.nodup_cons.mpr ⟨hfd, h.nodup⟩), hrest.exposed, ?_⟩
  intro fd' hfd'
  rcases List.mem_cons.mp hfd' with rfl | hfd'
  · exact ⟨d, t.assign_self _ _, hd⟩
  · exact hrest.shielded fd' hfd'

/-- A number that is not among them comes to refer to a descriptor without the flag. -/
theorem assign_exposed (h : t.Sorts flag E S) (hfd : fd ∉ E ++ S) (hd : flag d = false) :
    (t.assign fd d).Sorts flag (fd :: E) S := by
  have hrest := h.assign_of_not_mem hfd d
  refine ⟨List.nodup_cons.mpr ⟨hfd, h.nodup⟩, ?_, hrest.shielded⟩
  intro fd' hfd'
  rcases List.mem_cons.mp hfd' with rfl | hfd'
  · exact ⟨d, t.assign_self _ _, hd⟩
  · exact hrest.exposed fd' hfd'

omit [DecidableEq F] in
/-- The number at the head of either list is not among the rest. -/
theorem not_mem_of_exposed (h : t.Sorts flag (fd :: E) S) : fd ∉ E ++ S :=
  (List.nodup_cons.mp h.nodup).1

omit [DecidableEq F] in
theorem not_mem_of_shielded (h : t.Sorts flag E (fd :: S)) : fd ∉ E ++ S :=
  (List.nodup_cons.mp (List.nodup_middle.mp h.nodup)).1

/-- The flag of an exposed number is set. -/
theorem shield (h : t.Sorts flag (fd :: E) S) (hd : flag d = true) :
    (t.assign fd d).Sorts flag E (fd :: S) :=
  h.tail_exposed.assign_shielded h.not_mem_of_exposed hd

/-- The flag of a shielded number is cleared. -/
theorem expose (h : t.Sorts flag E (fd :: S)) (hd : flag d = false) :
    (t.assign fd d).Sorts flag (fd :: E) S :=
  h.tail_shielded.assign_exposed h.not_mem_of_shielded hd

/-- A sorted number is closed. -/
theorem close_exposed (h : t.Sorts flag (fd :: E) S) : (t.close fd).Sorts flag E S :=
  h.tail_exposed.close_of_not_mem h.not_mem_of_exposed

theorem close_shielded (h : t.Sorts flag E (fd :: S)) : (t.close fd).Sorts flag E S :=
  h.tail_shielded.close_of_not_mem h.not_mem_of_shielded

/-- Exposed numbers are closed. -/
theorem closeAll_exposed (h : t.Sorts flag (L ++ E) S) : (t.closeAll L).Sorts flag E S := by
  refine (h.sublist (List.sublist_append_right L E) (.refl S)).congr fun fd hfd => ?_
  rw [closeAll_apply, if_neg]
  intro hL
  have hnodup := h.nodup
  rw [List.append_assoc] at hnodup
  exact List.disjoint_of_nodup_append hnodup hL hfd

end Sorts

section Lowest

variable [LE F] [DecidableLE F]

/-- The first slot that is not below `m` and not in use. -/
def lowestFree (slots : List F) (t : DescriptorTable F D) (m : F) : Option F :=
  slots.find? fun n => m ≤ n ∧ (t n).isNone

variable {slots : List F} {t : DescriptorTable F D} {m n : F}

omit [DecidableEq F] in
/-- The number found is a slot, is not below the bound, and is free. -/
theorem lowestFree_spec (h : lowestFree slots t m = some n) :
    n ∈ slots ∧ m ≤ n ∧ t n = none := by
  have hp := List.find?_some h
  simp only [decide_eq_true_eq, Option.isNone_iff_eq_none] at hp
  exact ⟨List.mem_of_find?_eq_some h, hp⟩

omit [DecidableEq F] in
/-- A free slot that is not below the bound is enough. -/
theorem exists_lowestFree (hn : n ∈ slots) (hm : m ≤ n) (hfree : t n = none) :
    ∃ n', lowestFree slots t m = some n' := by
  refine Option.isSome_iff_exists.mp (List.find?_isSome.mpr ⟨n, hn, ?_⟩)
  simp [hm, hfree]

/-- Changing what an open number refers to does not change which numbers are free. -/
theorem lowestFree_assign {fd : F} (h : (t fd).isSome = true) (d : D) :
    lowestFree slots (t.assign fd d) m = lowestFree slots t m := by
  have hsame : ∀ n, (t.assign fd d n).isNone = (t n).isNone := by
    intro n
    by_cases hn : n = fd
    · subst hn
      rw [assign_self, Option.isNone_some, Option.isNone_eq_false_iff.mpr h]
    · rw [assign_of_ne t hn]
  unfold lowestFree
  congr 1
  funext n
  rw [hsame]

end Lowest

/-- There is a free slot when fewer numbers are in use than there are slots. -/
theorem exists_free {slots used : List F} {t : DescriptorTable F D} (hslots : slots.Nodup)
    (hlt : used.length < slots.length) (hused : ∀ fd, (t fd).isSome → fd ∈ used) :
    ∃ fd ∈ slots, t fd = none := by
  have hcard : used.toFinset.card < slots.toFinset.card := by
    rw [List.toFinset_card_of_nodup hslots]
    exact lt_of_le_of_lt (List.toFinset_card_le used) hlt
  obtain ⟨fd, hfd, hnot⟩ := Finset.exists_mem_notMem_of_card_lt_card hcard
  rw [List.mem_toFinset] at hfd hnot
  exact ⟨fd, hfd, Option.not_isSome_iff_eq_none.mp fun hopen => hnot (hused fd hopen)⟩

end DescriptorTable
