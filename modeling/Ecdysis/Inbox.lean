/-
# Rows of inboxes

General infrastructure: a row of inboxes, each a first-in first-out queue.  Items are
posted to one inbox of the row; an item that arrives where one of its kind waits already
may be merged with it; and `serve` takes the first item of the first inbox that has one.

* `serve_eq_some` : what is served and what stays.
* `Trace.conserved` : inbox by inbox, what was there and what was posted is what was
  served, followed by what is there.
* `Trace.waits` : an item that waits is served, or still waits, and then the number of
  items served meanwhile is the number of those that were ahead of it or came in ahead of
  it, less those that are ahead of it still.
-/
import Mathlib

namespace Inbox

variable {α : Type*}

/-! ## Serving -/

/-- What waits in inbox `i` of a row. -/
def waitingAt (row : List (List α)) (i : ℕ) : List α := (row[i]?).getD []

/-- The first item of the first inbox that has one, with the row that is left. -/
def serve : List (List α) → Option (ℕ × α × List (List α))
  | [] => none
  | (a :: q) :: row => some (0, a, q :: row)
  | [] :: row => (serve row).map fun (i, a, row') => (i + 1, a, [] :: row')

/-- **What is served**: the head of an inbox, all inboxes before it being empty; the
others stay as they are. -/
theorem serve_eq_some {row row' : List (List α)} {i : ℕ} {a : α}
    (h : serve row = some (i, a, row')) :
    ∃ q, row[i]? = some (a :: q) ∧ row' = row.set i q ∧ ∀ j < i, row[j]? = some [] := by
  induction row generalizing i row' with
  | nil => cases h
  | cons q row ih =>
    cases q with
    | cons b q =>
      cases h
      refine ⟨q, rfl, rfl, ?_⟩
      intro j hj
      omega
    | nil =>
      obtain ⟨⟨i', b, rest⟩, hrest, heq⟩ := Option.map_eq_some_iff.mp h
      cases heq
      obtain ⟨q, hq, hset, hbefore⟩ := ih hrest
      refine ⟨q, by simpa using hq, by simp [hset], ?_⟩
      intro j hj
      cases j with
      | zero => rfl
      | succ j =>
        rw [List.getElem?_cons_succ]
        apply hbefore
        omega

/-- Nothing is served when all inboxes are empty. -/
theorem serve_eq_none {row : List (List α)} : serve row = none ↔ ∀ q ∈ row, q = [] := by
  induction row with
  | nil => simp [serve]
  | cons q row ih =>
    cases q with
    | cons a q => simp [serve]
    | nil => simp [serve, ih]

/-! ## The course of a row -/

/-- What happens to a row. -/
inductive Mail (α : Type*)
  | posted (i : ℕ) (a : α)
  | merged (i : ℕ)
  | served (i : ℕ) (a : α)

/-- One step: an item is appended to an inbox, or merged with what waits there, or served. -/
inductive Step : List (List α) → Mail α → List (List α) → Prop
  | posted {row : List (List α)} {i : ℕ} {q : List α} {a : α} :
      row[i]? = some q → Step row (.posted i a) (row.set i (q ++ [a]))
  | merged {row : List (List α)} {i : ℕ} {q : List α} :
      row[i]? = some q → q ≠ [] → Step row (.merged i) row
  | served {row row' : List (List α)} {i : ℕ} {a : α} :
      serve row = some (i, a, row') → Step row (.served i a) row'

/-- A sequence of steps. -/
def Trace : List (List α) → List (Mail α) → List (List α) → Prop
  | row, [], row' => row = row'
  | row, m :: log, row' => ∃ mid, Step row m mid ∧ Trace mid log row'

theorem Trace.append {row mid row' : List (List α)} {log log' : List (Mail α)}
    (h : Trace row log mid) (h' : Trace mid log' row') : Trace row (log ++ log') row' := by
  induction log generalizing row with
  | nil =>
    have heq : row = mid := h
    rw [List.nil_append, heq]
    exact h'
  | cons m log ih =>
    obtain ⟨next, hstep, hrest⟩ := h
    exact ⟨next, hstep, ih hrest⟩

/-- The items posted to inbox `i`. -/
def postedAt (i : ℕ) (log : List (Mail α)) : List α :=
  log.filterMap fun
    | .posted j a => if j = i then some a else none
    | _ => none

/-- The items served from inbox `i`. -/
def servedAt (i : ℕ) (log : List (Mail α)) : List α :=
  log.filterMap fun
    | .served j a => if j = i then some a else none
    | _ => none

/-- How many items have been served. -/
def servings (log : List (Mail α)) : ℕ :=
  log.countP fun
    | .served _ _ => true
    | _ => false

/-- How many items have been posted to the inboxes before `i`. -/
def postedBefore (i : ℕ) (log : List (Mail α)) : ℕ :=
  log.countP fun
    | .posted j _ => j < i
    | _ => false

/-- How many items wait in the inboxes before `i`. -/
def waitingBefore (row : List (List α)) (i : ℕ) : ℕ := ((row.take i).map List.length).sum

theorem postedAt_append (i : ℕ) (log log' : List (Mail α)) :
    postedAt i (log ++ log') = postedAt i log ++ postedAt i log' :=
  List.filterMap_append

theorem servedAt_append (i : ℕ) (log log' : List (Mail α)) :
    servedAt i (log ++ log') = servedAt i log ++ servedAt i log' :=
  List.filterMap_append

theorem servings_append (log log' : List (Mail α)) :
    servings (log ++ log') = servings log + servings log' :=
  List.countP_append

theorem postedBefore_append (i : ℕ) (log log' : List (Mail α)) :
    postedBefore i (log ++ log') = postedBefore i log + postedBefore i log' :=
  List.countP_append

section

variable {row row' : List (List α)} {i j k : ℕ} {q : List α} {a : α} {m : Mail α}
  {log : List (Mail α)}

theorem waitingAt_of_getElem? (h : row[i]? = some q) : waitingAt row i = q := by
  rw [waitingAt, h, Option.getD_some]

theorem waitingAt_set_self (h : row[i]? = some q) (q' : List α) :
    waitingAt (row.set i q') i = q' := by
  have hi : i < row.length := (List.getElem?_eq_some_iff.mp h).1
  simp [waitingAt, hi]

theorem waitingAt_set_of_ne (hne : i ≠ j) (q' : List α) :
    waitingAt (row.set i q') j = waitingAt row j := by
  rw [waitingAt, waitingAt, List.getElem?_set_ne hne]

/-- What one step does to the inbox `i`. -/
theorem Step.conserved (h : Step row m row') (i : ℕ) :
    waitingAt row i ++ postedAt i [m] = servedAt i [m] ++ waitingAt row' i := by
  cases h with
  | @posted j q a hq =>
    by_cases hj : j = i
    · subst hj
      simp [postedAt, servedAt, waitingAt_of_getElem? hq, waitingAt_set_self hq]
    · simp [postedAt, servedAt, hj, waitingAt_set_of_ne hj]
  | merged => simp [postedAt, servedAt]
  | @served _ j a hserve =>
    obtain ⟨q, hq, rfl, -⟩ := serve_eq_some hserve
    by_cases hj : j = i
    · subst hj
      simp [postedAt, servedAt, waitingAt_of_getElem? hq, waitingAt_set_self hq]
    · simp [postedAt, servedAt, hj, waitingAt_set_of_ne hj]

/-- **Conservation**: inbox by inbox, nothing is lost, duplicated or reordered. -/
theorem Trace.conserved (h : Trace row log row') (i : ℕ) :
    waitingAt row i ++ postedAt i log = servedAt i log ++ waitingAt row' i := by
  induction log generalizing row with
  | nil =>
    have heq : row = row' := h
    simp [heq, postedAt, servedAt]
  | cons m log ih =>
    obtain ⟨mid, hstep, hrest⟩ := h
    rw [show m :: log = [m] ++ log from rfl, postedAt_append, servedAt_append,
      ← List.append_assoc, hstep.conserved i, List.append_assoc, ih hrest, List.append_assoc]

/-- Changing an inbox from `i` on does not change what waits before `i`. -/
theorem waitingBefore_set_of_le (h : i ≤ j) (q' : List α) :
    waitingBefore (row.set j q') i = waitingBefore row i := by
  rw [waitingBefore, List.take_set_of_le h, waitingBefore]

/-- Changing an inbox before `i` changes what waits before `i` by the difference. -/
theorem waitingBefore_set_of_lt (h : j < i) (hq : row[j]? = some q) (q' : List α) :
    waitingBefore (row.set j q') i + q.length = waitingBefore row i + q'.length := by
  induction row generalizing i j with
  | nil => cases hq
  | cons p row ih =>
    obtain ⟨i, rfl⟩ : ∃ n, i = n + 1 := ⟨i - 1, by omega⟩
    cases j with
    | zero =>
      cases hq
      simp only [waitingBefore, List.set_cons_zero, List.take_succ_cons, List.map_cons,
        List.sum_cons]
      omega
    | succ j =>
      have hrest := ih (i := i) (j := j) (by omega) hq
      simp only [waitingBefore, List.set_cons_succ, List.take_succ_cons, List.map_cons,
        List.sum_cons] at hrest ⊢
      omega

/-- What one step does to the item at position `k` of inbox `i`: it is served, or it moves
up with every item that is served, unless one comes in ahead of it. -/
theorem Step.waits (h : Step row m row') (hk : (waitingAt row i)[k]? = some a) :
    (servedAt i [m])[k]? = some a ∨
    ((servedAt i [m]).length ≤ k ∧
      servings [m] + (waitingBefore row' i + (k - (servedAt i [m]).length))
        = waitingBefore row i + k + postedBefore i [m]) := by
  cases h with
  | @posted j q b hq =>
    right
    refine ⟨by simp [servedAt], ?_⟩
    by_cases hj : j < i
    · have hset := waitingBefore_set_of_lt hj hq (q ++ [b])
      simp only [List.length_append, List.length_singleton] at hset
      simp [servings, servedAt, postedBefore, hj]
      omega
    · rw [waitingBefore_set_of_le (by omega)]
      simp [servings, servedAt, postedBefore, hj]
  | merged =>
    right
    simp [servings, servedAt, postedBefore]
  | @served _ j b hserve =>
    obtain ⟨q, hq, rfl, hbefore⟩ := serve_eq_some hserve
    rcases Nat.lt_trichotomy j i with hj | rfl | hj
    -- one that was ahead in an earlier inbox
    · right
      have hset := waitingBefore_set_of_lt hj hq q
      have hne : j ≠ i := by omega
      simp only [List.length_cons] at hset
      simp [servings, servedAt, postedBefore, hne]
      omega
    · rw [waitingAt_of_getElem? hq] at hk
      cases k with
      | zero =>
        left
        simpa [servedAt] using hk
      | succ k =>
        right
        rw [waitingBefore_set_of_le le_rfl]
        simp [servings, servedAt, postedBefore]
        omega
    -- a later inbox is not served while the item waits
    · rw [waitingAt_of_getElem? (hbefore i hj)] at hk
      cases hk

/-- An item that one step does not serve waits on, as far up as items of its inbox were
served. -/
theorem Step.waitingAt_of_le (h : Step row m row') (hk : (waitingAt row i)[k]? = some a)
    (hle : (servedAt i [m]).length ≤ k) :
    (waitingAt row' i)[k - (servedAt i [m]).length]? = some a := by
  have hlt : k < (waitingAt row i).length := (List.getElem?_eq_some_iff.mp hk).1
  have hsame : (waitingAt row i ++ postedAt i [m])[k]? = some a := by
    rw [List.getElem?_append_left hlt, hk]
  rw [h.conserved i, List.getElem?_append_right hle] at hsame
  exact hsame

/-- **An item that waits is served in its turn**: it has been served, or it still waits, and
the items served meanwhile are among those that were ahead of it or came in ahead of it. -/
theorem Trace.waits (h : Trace row log row') (hk : (waitingAt row i)[k]? = some a) :
    (servedAt i log)[k]? = some a ∨
    ((servedAt i log).length ≤ k ∧
      (waitingAt row' i)[k - (servedAt i log).length]? = some a ∧
      servings log + (waitingBefore row' i + (k - (servedAt i log).length))
        = waitingBefore row i + k + postedBefore i log) := by
  induction log generalizing row k with
  | nil =>
    have heq : row = row' := h
    right
    subst heq
    simpa [servedAt, servings, postedBefore] using hk
  | cons m log ih =>
    obtain ⟨mid, hstep, hrest⟩ := h
    rw [show m :: log = [m] ++ log from rfl, servedAt_append, servings_append,
      postedBefore_append, List.length_append]
    rcases hstep.waits hk with hdone | ⟨hle, hcount⟩
    · left
      rw [List.getElem?_append_left (List.getElem?_eq_some_iff.mp hdone).1, hdone]
    · have hmid := hstep.waitingAt_of_le hk hle
      rcases ih hrest hmid with hdone | ⟨hle', hwait, hcount'⟩
      · left
        rw [List.getElem?_append_right hle, hdone]
      · right
        rw [← Nat.sub_sub]
        refine ⟨by omega, hwait, ?_⟩
        omega

end

end Inbox
