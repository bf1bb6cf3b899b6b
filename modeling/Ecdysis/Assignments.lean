/-
# Texts of assignments

General infrastructure: a list of variables with their values, written one to a line, with
a mark between the variable and its value, and read back line by line.  A line that has no
mark is not an assignment.

`read_write_iff` says which lists are read back as they were written.
-/
import Mathlib

namespace Assignments

variable {α : Type*} [DecidableEq α] {mark sep : α}

/-- One assignment. -/
def writeLine (mark : α) (kv : List α × List α) : List α := kv.1 ++ mark :: kv.2

/-- A list of assignments, one to a line. -/
def write (mark sep : α) (kvs : List (List α × List α)) : List α :=
  [sep].intercalate (kvs.map (writeLine mark))

/-- The variable is what stands before the first mark. -/
def readLine (mark : α) (line : List α) : Option (List α × List α) :=
  if mark ∈ line then
    some (line.takeWhile (· ≠ mark), (line.dropWhile (· ≠ mark)).tail)
  else none

/-- The assignments of a text, in order. -/
def read (mark sep : α) (text : List α) : List (List α × List α) :=
  (text.splitOn sep).filterMap (readLine mark)

/-- What is needed to read an assignment back. -/
def Clean (mark sep : α) (kv : List α × List α) : Prop :=
  mark ∉ kv.1 ∧ sep ∉ kv.1 ∧ sep ∉ kv.2

/-- No line goes over its end. -/
theorem not_mem_of_mem_splitOn {line text : List α} (h : line ∈ text.splitOn sep) :
    sep ∉ line := by
  induction text generalizing line with
  | nil =>
    rw [List.splitOn_nil, List.mem_singleton] at h
    simp [h]
  | cons x text ih =>
    rw [List.splitOn_cons_eq_if_modifyHead] at h
    split at h
    · rcases List.mem_cons.mp h with rfl | h
      · exact List.not_mem_nil
      · exact ih h
    · rename_i hx
      have hx : sep ≠ x := fun heq => hx (by simp [heq])
      cases hsplit : text.splitOn sep with
      | nil => exact absurd hsplit (List.splitOn_ne_nil sep text)
      | cons first rest =>
        rw [hsplit, List.modifyHead_cons] at h
        rcases List.mem_cons.mp h with rfl | h
        · have hfirst : sep ∉ first := ih (by simp [hsplit])
          simp [hx, hfirst]
        · exact ih (by simp [hsplit, h])

theorem readLine_writeLine {kv : List α × List α} (h : mark ∉ kv.1) :
    readLine mark (writeLine mark kv) = some kv := by
  have hall : ∀ x ∈ kv.1, (decide (x ≠ mark)) = true := by
    intro x hx
    simpa using ne_of_mem_of_not_mem hx h
  rw [readLine, if_pos (by simp [writeLine]), writeLine, List.takeWhile_append_of_pos hall,
    List.dropWhile_append_of_pos hall]
  simp

/-- A variable that was read has no mark, and nothing that was read goes over its line. -/
theorem clean_of_readLine {line : List α} {kv : List α × List α} (hsep : sep ∉ line)
    (h : readLine mark line = some kv) : Clean mark sep kv := by
  unfold readLine at h
  split at h
  · cases h
    refine ⟨fun hmem => ?_, fun hmem => hsep ?_, fun hmem => hsep ?_⟩
    · simpa using List.mem_takeWhile_imp hmem
    · exact (List.takeWhile_prefix _).subset hmem
    · exact (List.dropWhile_suffix _).subset (List.mem_of_mem_tail hmem)
  · cases h

/-- **Reading undoes writing** exactly when no variable has a mark in it, and neither a
variable nor a value goes over its line. -/
theorem read_write_iff (hne : mark ≠ sep) (kvs : List (List α × List α)) :
    read mark sep (write mark sep kvs) = kvs ↔ ∀ kv ∈ kvs, Clean mark sep kv := by
  constructor
  · intro h kv hkv
    rw [← h] at hkv
    obtain ⟨line, hline, hread⟩ := List.mem_filterMap.mp hkv
    exact clean_of_readLine (not_mem_of_mem_splitOn hline) hread
  · intro h
    by_cases hnil : kvs = []
    · subst hnil
      simp [read, write, readLine]
    have hsplit : (write mark sep kvs).splitOn sep = kvs.map (writeLine mark) := by
      refine List.splitOn_intercalate sep ?_ (by simpa using hnil)
      intro line hline
      obtain ⟨kv, hkv, rfl⟩ := List.mem_map.mp hline
      obtain ⟨-, hkey, hvalue⟩ := h kv hkv
      simp [writeLine, hkey, hvalue, hne.symm]
    rw [read, hsplit, List.filterMap_map]
    refine (List.filterMap_congr fun kv hkv => ?_).trans List.filterMap_some
    exact readLine_writeLine (h kv hkv).1

end Assignments
