/-
# The write end of the ready pipe

The parent of an upgrade learns that its child has died from the end of the ready pipe,
and a pipe ends when no process has its write end open.  This module follows the write end
through a growing tree of processes: the steps of `ready_pipes`, `exec_upgraded` and
`take_pipes` one system call at a time, with the descriptor tables and close-on-exec flags of
all processes, while any process may start others, open and close numbers, and exit.
Starting a command is one step, fork and exec together: its process has what its starter's
table holds without the flag.

* `Kernel.held` : some process has the write end open, so that a read does not meet the end.
* `Kernel.Sole` : who has the write end open, and with which flag.  Every operation keeps
  this, except when a process that has it open without the flag starts a command
  (`Sole.spawn`, `Sole.not_confined`).
-/
import Ecdysis.Executioner
import Ecdysis.FiniteMap
import Ecdysis.Registry

open Executioner

namespace WriteEnd

/-! ## Processes and their descriptors -/

/-- The process that calls `upgrade`, the child it starts, and all others. -/
inductive Pid
  | parent
  | child
  | other (n : ℕ)
  deriving DecidableEq

/-- The descriptors of a process. -/
abbrev Fds := FiniteMap RawFd Desc

/-- `clone_fd`, under a limit on the numbers. -/
def cloneFd (t : Fds) (limit : ℕ) (toClone : RawFd) : Option (RawFd × Fds) :=
  (t.get toClone).bind fun d =>
    (DescriptorTable.lowestFree (slots limit) t.get toClone).map fun newFd =>
      (newFd, t.insert newFd { d with cloexec := true })

/-- `unset_cloexec`, which panics on a number that is not open. -/
def unsetCloexec (t : Fds) (fd : RawFd) : Option Fds :=
  (t.get fd).map fun d => t.insert fd { d with cloexec := false }

/-- What runs in a forked process before `exec`: the flags of some numbers are cleared, those
of the listeners in the case of `exec_upgraded`. -/
def preExec (t : Fds) : List RawFd → Option Fds
  | [] => some t
  | fd :: fds => (unsetCloexec t fd).bind fun t' => preExec t' fds

/-- What `exec` leaves. -/
def exec (t : Fds) : Fds := t.filter fun d => !d.cloexec

/-- `close_fd_quiet`, for some numbers. -/
def closeAll (t : Fds) (fds : List RawFd) : Fds := fds.foldl FiniteMap.erase t

/-! ## The pipe in the parent -/

/-- The numbers that the parent has for the ready pipe: none before `os_pipe::pipe`, then the
two ends, the duplicate of the writer made by `clone_fd`, the same with its flag cleared by
`unset_cloexec`, the reader and the duplicate once `send_ready` is dropped at the end of
`ready_pipes`, the reader once `take_pipes` has dropped the `FdPair`, and none again. -/
inductive Ends
  | unmade
  | made (reader writer : RawFd)
  | cloned (reader writer dup : RawFd)
  | unset (reader writer dup : RawFd)
  | passed (reader dup : RawFd)
  | taken (reader : RawFd)
  | dropped
  deriving DecidableEq

namespace Ends

/-- All these numbers. -/
def owned : Ends → List RawFd
  | .unmade | .dropped => []
  | .made reader writer => [reader, writer]
  | .cloned reader writer dup | .unset reader writer dup => [reader, writer, dup]
  | .passed reader dup => [reader, dup]
  | .taken reader => [reader]

/-- The numbers of the write end that are close-on-exec. -/
def shielded : Ends → List RawFd
  | .made _ writer | .unset _ writer _ => [writer]
  | .cloned _ writer dup => [writer, dup]
  | _ => []

/-- The numbers of the write end that are not. -/
def exposed : Ends → List RawFd
  | .unset _ _ dup | .passed _ dup => [dup]
  | _ => []

/-- The numbers of the write end. -/
def writers (e : Ends) : List RawFd := e.shielded ++ e.exposed

/-- `take_pipes` is still to come. -/
def beforeTake : Ends → Bool
  | .taken _ | .dropped => false
  | _ => true

end Ends

/-! ## The kernel -/

/-- The processes with their descriptors, the limit on numbers, what the parent has of the
ready pipe, the file of its write end, and the number of the child's `ready_notifier`. -/
structure Kernel where
  limit : ℕ
  procs : FiniteMap Pid Fds
  ends : Ends
  writeEnd : Option ℕ
  childEnd : Option RawFd

namespace Kernel

/-- What a number of a process refers to. -/
def desc (q : Kernel) (pid : Pid) (fd : RawFd) : Option Desc :=
  (q.procs.get pid).bind fun t => t.get fd

/-- Some process has the file open. -/
def refers (q : Kernel) (file : ℕ) : Bool := q.procs.any fun t => t.any fun d => d.file = file

/-- Some process has the write end of the ready pipe open, so that a read does not meet the
end of the pipe. -/
def held (q : Kernel) : Bool := q.writeEnd.any q.refers

/-- The numbers of a process that are the ready pipe's, and not the application's. -/
def owned (q : Kernel) : Pid → List RawFd
  | .parent => q.ends.owned
  | .child => q.childEnd.toList
  | .other _ => []

/-- The descriptors of a process change. -/
def update (q : Kernel) (pid : Pid) (f : Fds → Fds) : Option Kernel :=
  (q.procs.get pid).map fun t => { q with procs := q.procs.insert pid (f t) }

/-- `os_pipe::pipe` in `ready_pipes`: both ends are new files under free numbers, and
close-on-exec. -/
def pipe (q : Kernel) (reader writer : RawFd) (readEnd writeEnd : ℕ) : Option Kernel :=
  if q.ends = .unmade ∧ q.desc .parent reader = none ∧ q.desc .parent writer = none ∧
      writer ≠ reader ∧ readEnd ≠ writeEnd ∧ q.refers writeEnd = false then
    (q.update .parent fun t =>
      (t.insert reader ⟨readEnd, true⟩).insert writer ⟨writeEnd, true⟩).map fun q' =>
        { q' with ends := .made reader writer, writeEnd := some writeEnd }
  else none

/-- `clone_fd` in `ready_pipes`. -/
def clone (q : Kernel) : Option Kernel :=
  match q.ends with
  | .made reader writer =>
    (q.procs.get .parent).bind fun t => (cloneFd t q.limit writer).map fun (dup, t') =>
      { q with procs := q.procs.insert .parent t', ends := .cloned reader writer dup }
  | _ => none

/-- `unset_cloexec` in `ready_pipes`. -/
def unset (q : Kernel) : Option Kernel :=
  match q.ends with
  | .cloned reader writer dup =>
    (q.procs.get .parent).bind fun t => (unsetCloexec t dup).map fun t' =>
      { q with procs := q.procs.insert .parent t', ends := .unset reader writer dup }
  | _ => none

/-- The end of `ready_pipes`, where `send_ready` is dropped. -/
def dropWriter (q : Kernel) : Option Kernel :=
  match q.ends with
  | .unset reader writer dup =>
    (q.update .parent fun t => t.erase writer).map fun q' => { q' with ends := .passed reader dup }
  | _ => none

/-- `exec_upgraded`, with the numbers of the listeners; the child is told the number of the
duplicate. -/
def execUpgraded (q : Kernel) (fds : List RawFd) : Option Kernel :=
  match q.ends with
  | .passed _ dup =>
    (q.procs.get .parent).bind fun t => (preExec t fds).map fun t' =>
      { q with procs := q.procs.insert .child (exec t'), childEnd := some dup }
  | _ => none

/-- `take_pipes`, which drops the `FdPair`. -/
def takePipes (q : Kernel) : Option Kernel :=
  match q.ends with
  | .passed reader dup =>
    (q.update .parent fun t => t.erase dup).map fun q' => { q' with ends := .taken reader }
  | _ => none

/-- The parent drops all it has of the pipe. -/
def dropEnds (q : Kernel) : Option Kernel :=
  (q.update .parent fun t => closeAll t q.ends.owned).map fun q' => { q' with ends := .dropped }

/-- What an action of the child does: it writes to its `ready_notifier`, drops it, or exits. -/
def childAct (q : Kernel) : ChildAct → Option Kernel
  | .write _ =>
    if (q.childEnd.bind fun fd => q.desc .child fd).isSome then some q else none
  | .close => q.childEnd.bind fun fd =>
    (q.update .child fun t => t.erase fd).map fun q' => { q' with childEnd := none }
  | .exit => some { q with procs := q.procs.erase .child, childEnd := none }

/-- Any process starts a command, as process `n`; the flags of some numbers that are not the
pipe's may be cleared for it.  `fork` and `exec` are one step: the process in between, which
has a copy of all that its starter has open, is not among the holders. -/
def spawn (q : Kernel) (pid : Pid) (n : ℕ) (fds : List RawFd) : Option Kernel :=
  if (q.procs.get (.other n)).isNone && fds.all fun fd => fd ∉ q.owned pid then
    (q.procs.get pid).bind fun t => (preExec t fds).map fun t' =>
      { q with procs := q.procs.insert (.other n) (exec t') }
  else none

/-- A process other than the parent and the child exits. -/
def exit (q : Kernel) (n : ℕ) : Option Kernel :=
  some { q with procs := q.procs.erase (.other n) }

/-- A number that is not the pipe's comes to refer to a file that is not its write end. -/
def assign (q : Kernel) (pid : Pid) (fd : RawFd) (d : Desc) : Option Kernel :=
  if fd ∉ q.owned pid ∧ q.writeEnd ≠ some d.file then q.update pid fun t => t.insert fd d else none

/-- A number that is not the pipe's is closed. -/
def close (q : Kernel) (pid : Pid) (fd : RawFd) : Option Kernel :=
  if fd ∉ q.owned pid then q.update pid fun t => t.erase fd else none

end Kernel

/-! ## Who has the write end open -/

variable {t t' : Fds} {q q' : Kernel} {pid : Pid} {fd dup : RawFd} {fds : List RawFd} {d : Desc}

/-- What runs before `exec` changes no file, and no flag but those it is for. -/
theorem preExec_eq_some (h : preExec t fds = some t') :
    (∀ fd, fd ∉ fds → t'.get fd = t.get fd) ∧
      ∀ fd, (t'.get fd).map Desc.file = (t.get fd).map Desc.file := by
  induction fds generalizing t with
  | nil =>
    cases h
    exact ⟨fun _ _ => rfl, fun _ => rfl⟩
  | cons fd₀ fds ih =>
    obtain ⟨t₁, hunset, hrest⟩ := Option.bind_eq_some_iff.mp h
    obtain ⟨d, hd, rfl⟩ := Option.map_eq_some_iff.mp hunset
    obtain ⟨hother, hfile⟩ := ih hrest
    refine ⟨fun fd hfd => ?_, fun fd => ?_⟩
    · rw [List.mem_cons, not_or] at hfd
      obtain ⟨hne, hfd⟩ := hfd
      rw [hother fd hfd, FiniteMap.get_insert_of_ne hne]
    · rw [hfile fd]
      by_cases hfd : fd = fd₀
      · subst hfd
        simp [hd]
      · rw [FiniteMap.get_insert_of_ne hfd]

/-- Closing numbers frees these and leaves the rest. -/
theorem get_closeAll (t : Fds) (fds : List RawFd) (fd : RawFd) :
    (closeAll t fds).get fd = if fd ∈ fds then none else t.get fd :=  by
  induction fds generalizing t with
  | nil => simp [closeAll]
  | cons fd₀ fds ih =>
    have hfold : closeAll t (fd₀ :: fds) = closeAll (t.erase fd₀) fds := rfl
    rw [hfold, ih]
    by_cases hmem : fd ∈ fds
    · simp [hmem]
    · by_cases heq : fd = fd₀
      · simp [heq]
      · simp [hmem, heq]

namespace Ends

variable {e : Ends}

theorem writers_subset_owned : e.writers ⊆ e.owned := by
  cases e <;> simp [writers, shielded, exposed, owned]

theorem writers_of_not_beforeTake (h : e.beforeTake = false) : e.writers = [] := by
  cases e <;> first | rfl | cases h

end Ends

namespace Kernel

/-- The number refers to the write end. -/
def Holds (q : Kernel) (pid : Pid) (fd : RawFd) : Prop :=
  ∃ d, q.desc pid fd = some d ∧ q.writeEnd = some d.file

/-- Nobody but the child and, until `take_pipes`, the parent has the write end open. -/
def Confined (q : Kernel) : Prop :=
  ∀ pid fd, q.Holds pid fd → pid = .child ∨ pid = .parent ∧ q.ends.beforeTake = true

/-- The condition: a process that starts a command does not have the write end open without
the flag.  For the parent this is so before `unset_cloexec` and after `take_pipes`, for the
child after it has closed its end. -/
def spares (q : Kernel) : Pid → Bool
  | .parent => q.ends.exposed.isEmpty
  | .child => q.childEnd.isNone
  | .other _ => true

/-- Who has the write end open: the parent under the numbers of `ends`, with the flags that
belong to them, the child under the number of its `ready_notifier`, without the flag, and
nobody else. -/
structure Sole (q : Kernel) : Prop where
  parent : ∀ fd, q.Holds .parent fd ↔ fd ∈ q.ends.writers
  child : ∀ fd, q.Holds .child fd ↔ q.childEnd = some fd
  other : ∀ n fd, ¬ q.Holds (.other n) fd
  shielded : ∀ fd ∈ q.ends.shielded, ∀ d, q.desc .parent fd = some d → d.cloexec = true
  exposed : ∀ fd ∈ q.ends.exposed, ∀ d, q.desc .parent fd = some d → d.cloexec = false
  childExposed : ∀ fd, q.childEnd = some fd → ∀ d, q.desc .child fd = some d → d.cloexec = false
  nodup : q.ends.writers.Nodup
  unmade : q.ends = .unmade → q.writeEnd = none

theorem desc_insert_self (h : q'.procs = q.procs.insert pid t) : q'.desc pid fd = t.get fd := by
  simp [desc, h]

theorem desc_insert_of_ne {pid' : Pid} (h : q'.procs = q.procs.insert pid t) (hne : pid' ≠ pid) :
    q'.desc pid' fd = q.desc pid' fd := by
  simp [desc, h, hne]

theorem desc_of_get (h : q.procs.get pid = some t) : q.desc pid fd = t.get fd := by
  simp [desc, h]

/-- Whether a number holds the write end depends on what it refers to only. -/
theorem holds_congr {pid' : Pid} {fd' : RawFd} (hw : q'.writeEnd = q.writeEnd)
    (hdesc : q'.desc pid' fd' = q.desc pid fd) : q'.Holds pid' fd' ↔ q.Holds pid fd := by
  unfold Holds
  rw [hw, hdesc]

/-- **The end of the pipe** is met when no number of any process refers to the write end. -/
theorem held_iff : q.held = true ↔ ∃ pid fd, q.Holds pid fd := by
  unfold held
  rw [Option.any_eq_true]
  constructor
  · rintro ⟨file, hw, hrefers⟩
    obtain ⟨pid, t, ht, hany⟩ := FiniteMap.any_iff.mp hrefers
    obtain ⟨fd, d, hd, hfile⟩ := FiniteMap.any_iff.mp hany
    refine ⟨pid, fd, d, (desc_of_get ht).trans hd, ?_⟩
    rw [hw, of_decide_eq_true hfile]
  · rintro ⟨pid, fd, d, hd, hw⟩
    obtain ⟨t, ht, hd⟩ := Option.bind_eq_some_iff.mp hd
    exact ⟨d.file, hw, FiniteMap.any_iff.mpr ⟨pid, t, ht, FiniteMap.any_iff.mpr
      ⟨fd, d, hd, decide_eq_true rfl⟩⟩⟩

/-- The pipe's numbers. -/
theorem Sole.owned (h : q.Sole) (hold : q.Holds pid fd) : fd ∈ q.owned pid := by
  cases pid with
  | parent => exact Ends.writers_subset_owned ((h.parent fd).mp hold)
  | child => simp [Kernel.owned, (h.child fd).mp hold]
  | other n => exact absurd hold (h.other n fd)

theorem Sole.confined (h : q.Sole) : q.Confined := by
  intro pid fd hold
  cases pid with
  | child => exact .inl rfl
  | parent =>
    refine .inr ⟨rfl, ?_⟩
    by_contra hne
    have hmem := (h.parent fd).mp hold
    rw [Ends.writers_of_not_beforeTake (by simpa using hne)] at hmem
    cases hmem
  | other n => exact absurd hold (h.other n fd)

/-- **Numbers that are not the pipe's** may change as they like, unless they come to refer to
the write end. -/
theorem Sole.of_desc (h : q.Sole) (hends : q'.ends = q.ends) (hw : q'.writeEnd = q.writeEnd)
    (hchild : q'.childEnd = q.childEnd)
    (hdesc : ∀ pid fd, q'.desc pid fd = q.desc pid fd ∨
      fd ∉ q.owned pid ∧ ¬ q'.Holds pid fd) : q'.Sole := by
  have hholds : ∀ pid fd, q'.Holds pid fd ↔ q.Holds pid fd := by
    intro pid fd
    rcases hdesc pid fd with heq | ⟨hnot, hnew⟩
    · exact holds_congr hw heq
    · exact ⟨fun hold => absurd hold hnew, fun hold => absurd (h.owned hold) hnot⟩
  have hkept : ∀ pid fd, fd ∈ q.owned pid → q'.desc pid fd = q.desc pid fd := fun pid fd hfd =>
    (hdesc pid fd).resolve_right fun hnot => hnot.1 hfd
  have hsh : ∀ fd ∈ q.ends.shielded, q'.desc .parent fd = q.desc .parent fd := fun fd hfd =>
    hkept .parent fd (Ends.writers_subset_owned (List.mem_append_left _ hfd))
  have hex : ∀ fd ∈ q.ends.exposed, q'.desc .parent fd = q.desc .parent fd := fun fd hfd =>
    hkept .parent fd (Ends.writers_subset_owned (List.mem_append_right _ hfd))
  refine ⟨fun fd => ?_, fun fd => ?_, fun n fd => ?_, ?_, ?_, ?_, ?_, ?_⟩
  · rw [hholds, hends]
    exact h.parent fd
  · rw [hholds, hchild]
    exact h.child fd
  · rw [hholds]
    exact h.other n fd
  · rw [hends]
    exact fun fd hfd d hd => h.shielded fd hfd d ((hsh fd hfd).symm.trans hd)
  · rw [hends]
    exact fun fd hfd d hd => h.exposed fd hfd d ((hex fd hfd).symm.trans hd)
  · rw [hchild]
    intro fd hfd d hd
    rw [hkept .child fd (by simp [Kernel.owned, hfd])] at hd
    exact h.childExposed fd hfd d hd
  · rw [hends]
    exact h.nodup
  · rw [hends, hw]
    exact h.unmade

/-- **A step of the parent with the pipe**: its table and its numbers change. -/
theorem Sole.of_parent (h : q.Sole) {ends : Ends}
    (hwriters : ∀ fd, (∃ d, t.get fd = some d ∧ q.writeEnd = some d.file) ↔ fd ∈ ends.writers)
    (hshielded : ∀ fd ∈ ends.shielded, ∀ d, t.get fd = some d → d.cloexec = true)
    (hexposed : ∀ fd ∈ ends.exposed, ∀ d, t.get fd = some d → d.cloexec = false)
    (hnodup : ends.writers.Nodup) (hmade : ends ≠ .unmade) :
    Sole { q with procs := q.procs.insert .parent t, ends := ends } := by
  have hself : ∀ fd, Kernel.desc { q with procs := q.procs.insert .parent t, ends := ends } .parent
      fd = t.get fd := fun fd => desc_insert_self rfl
  have hne : ∀ pid fd, pid ≠ .parent → Kernel.desc { q with
      procs := q.procs.insert .parent t, ends := ends } pid fd = q.desc pid fd :=
    fun pid fd hpid => desc_insert_of_ne rfl hpid
  refine ⟨fun fd => ?_, fun fd => ?_, fun n fd hold => ?_, ?_, ?_, ?_, hnodup,
    fun hun => absurd hun hmade⟩
  · unfold Holds
    rw [hself]
    exact hwriters fd
  · exact (holds_congr (q := q) rfl (hne .child fd (by simp))).trans (h.child fd)
  · exact h.other n fd ((holds_congr (q := q) rfl (hne (.other n) fd (by simp))).mp hold)
  · simp only [hself]
    exact hshielded
  · simp only [hself]
    exact hexposed
  · intro fd hfd d hd
    rw [hne .child fd (by simp)] at hd
    exact h.childExposed fd hfd d hd

/-! ## The pipe is set up -/

theorem Sole.parent_get (h : q.Sole) (ht : q.procs.get .parent = some t) (fd : RawFd) :
    (∃ d, t.get fd = some d ∧ q.writeEnd = some d.file) ↔ fd ∈ q.ends.writers := by
  rw [← h.parent fd, Holds, desc_of_get ht]

/-- No number refers to a file that is new. -/
theorem file_ne_of_fresh {file : ℕ} (hfresh : q.refers file = false)
    (hd : q.desc pid fd = some d) : d.file ≠ file := by
  intro heq
  obtain ⟨t, ht, hd⟩ := Option.bind_eq_some_iff.mp hd
  have hany := FiniteMap.any_eq_false_iff.mp hfresh pid t ht
  simpa [heq] using FiniteMap.any_eq_false_iff.mp hany fd d hd

/-- Before the pipe is made the child has no end of it. -/
theorem Sole.childEnd_of_unmade (h : q.Sole) (hends : q.ends = .unmade) : q.childEnd = none := by
  refine Option.eq_none_iff_forall_ne_some.mpr fun fd hfd => ?_
  obtain ⟨d, -, hw⟩ := (h.child fd).mpr hfd
  rw [h.unmade hends] at hw
  cases hw

/-- The pipe is made. -/
theorem Sole.pipe (h : q.Sole) {reader writer : RawFd} {readEnd writeEnd : ℕ}
    (hpipe : q.pipe reader writer readEnd writeEnd = some q') : q'.Sole := by
  unfold Kernel.pipe at hpipe
  split at hpipe
  · rename_i hguard
    obtain ⟨hends, hreader, hwriter, hne, hfile, hfresh⟩ := hguard
    obtain ⟨q₁, hupdate, heq⟩ := Option.map_eq_some_iff.mp hpipe
    obtain ⟨t, ht, rfl⟩ := Option.map_eq_some_iff.mp hupdate
    set t' := (t.insert reader ⟨readEnd, true⟩).insert writer ⟨writeEnd, true⟩ with ht'
    have hprocs : q'.procs = q.procs.insert .parent t' := by rw [← heq]
    have hends' : q'.ends = .made reader writer := by rw [← heq]
    have hw' : q'.writeEnd = some writeEnd := by rw [← heq]
    have hchild' : q'.childEnd = q.childEnd := by rw [← heq]
    have hchild := h.childEnd_of_unmade hends
    have hother : ∀ pid, pid ≠ .parent → ∀ fd, ¬ q'.Holds pid fd := by
      rintro pid hpid fd ⟨d, hd, hw⟩
      rw [desc_insert_of_ne hprocs hpid] at hd
      rw [hw', Option.some.injEq] at hw
      exact file_ne_of_fresh hfresh hd hw.symm
    refine ⟨fun fd => ?_, fun fd => ?_, fun n => hother _ (by simp), ?_, ?_, ?_, ?_, ?_⟩
    · unfold Holds
      rw [desc_insert_self hprocs, hends', hw']
      simp only [Ends.writers, Ends.shielded, Ends.exposed, List.append_nil, List.mem_singleton,
        Option.some.injEq]
      constructor
      · rintro ⟨d, hd, hw⟩
        by_contra hfd
        rw [ht', FiniteMap.get_insert_of_ne hfd] at hd
        by_cases hr : fd = reader
        · subst hr
          rw [FiniteMap.get_insert_self] at hd
          cases hd
          exact hfile hw.symm
        · rw [FiniteMap.get_insert_of_ne hr] at hd
          exact file_ne_of_fresh hfresh ((desc_of_get ht).trans hd) hw.symm
      · rintro rfl
        exact ⟨_, FiniteMap.get_insert_self, rfl⟩
    · rw [hchild', hchild]
      simp only [reduceCtorEq, iff_false]
      exact hother .child (by simp) fd
    · intro fd hfd d hd
      rw [hends', Ends.shielded, List.mem_singleton] at hfd
      subst hfd
      rw [desc_insert_self hprocs, ht', FiniteMap.get_insert_self] at hd
      cases hd
      rfl
    · rw [hends']
      rintro fd ⟨⟩
    · rw [hchild', hchild]
      rintro fd ⟨⟩
    · rw [hends']
      exact List.nodup_singleton writer
    · rw [hends']
      rintro ⟨⟩
  · cases hpipe

/-- The writer is duplicated. -/
theorem Sole.clone (h : q.Sole) (hclone : q.clone = some q') : q'.Sole := by
  unfold Kernel.clone at hclone
  split at hclone
  · rename_i reader writer hends
    obtain ⟨t, ht, hclone⟩ := Option.bind_eq_some_iff.mp hclone
    obtain ⟨⟨dup, t'⟩, hdup, rfl⟩ := Option.map_eq_some_iff.mp hclone
    obtain ⟨d, hd, hdup⟩ := Option.bind_eq_some_iff.mp hdup
    obtain ⟨n, hn, heq⟩ := Option.map_eq_some_iff.mp hdup
    cases heq
    obtain ⟨-, -, hfree⟩ := DescriptorTable.lowestFree_spec hn
    have hwriters := h.parent_get ht
    rw [hends] at hwriters
    simp only [Ends.writers, Ends.shielded, Ends.exposed, List.append_nil,
      List.mem_singleton] at hwriters
    obtain ⟨d', hd', hw⟩ := (hwriters writer).mpr rfl
    rw [hd] at hd'
    cases hd'
    have hne : writer ≠ dup := by
      rintro rfl
      rw [hfree] at hd
      cases hd
    have hflag : d.cloexec = true := by
      refine h.shielded writer ?_ d ((desc_of_get ht).trans hd)
      rw [hends]
      exact List.mem_singleton_self writer
    refine h.of_parent (fun fd => ?_) ?_ ?_ ?_ (by simp)
    · simp only [Ends.writers, Ends.shielded, Ends.exposed, List.append_nil, List.mem_cons,
        List.not_mem_nil, or_false]
      by_cases hfd : fd = dup
      · subst hfd
        simpa using hw
      · rw [FiniteMap.get_insert_of_ne hfd, hwriters fd]
        simp [hfd]
    · simp only [Ends.shielded, List.mem_cons, List.not_mem_nil, or_false]
      rintro fd (rfl | rfl) d₁ hd₁
      · rw [FiniteMap.get_insert_of_ne hne, hd] at hd₁
        cases hd₁
        exact hflag
      · rw [FiniteMap.get_insert_self] at hd₁
        cases hd₁
        rfl
    · rintro fd ⟨⟩
    · simpa [Ends.writers, Ends.shielded, Ends.exposed] using hne
  · cases hclone

/-- The flag of the duplicate is cleared. -/
theorem Sole.unset (h : q.Sole) (hunset : q.unset = some q') : q'.Sole := by
  unfold Kernel.unset at hunset
  split at hunset
  · rename_i reader writer dup hends
    obtain ⟨t, ht, hunset⟩ := Option.bind_eq_some_iff.mp hunset
    obtain ⟨t', hflag, rfl⟩ := Option.map_eq_some_iff.mp hunset
    obtain ⟨d, hd, rfl⟩ := Option.map_eq_some_iff.mp hflag
    have hwriters := h.parent_get ht
    have hnodup := h.nodup
    rw [hends] at hwriters hnodup
    simp only [Ends.writers, Ends.shielded, Ends.exposed, List.append_nil, List.mem_cons,
      List.not_mem_nil, or_false] at hwriters
    have hne : writer ≠ dup := by
      simpa [Ends.writers, Ends.shielded, Ends.exposed] using hnodup
    obtain ⟨d', hd', hw⟩ := (hwriters dup).mpr (.inr rfl)
    rw [hd] at hd'
    cases hd'
    refine h.of_parent (fun fd => ?_) ?_ ?_ ?_ (by simp)
    · simp only [Ends.writers, Ends.shielded, Ends.exposed, List.singleton_append, List.mem_cons,
        List.not_mem_nil, or_false]
      by_cases hfd : fd = dup
      · subst hfd
        simpa using hw
      · rw [FiniteMap.get_insert_of_ne hfd, hwriters fd]
    · simp only [Ends.shielded, List.mem_singleton]
      rintro fd rfl d₁ hd₁
      rw [FiniteMap.get_insert_of_ne hne] at hd₁
      refine h.shielded fd ?_ d₁ ((desc_of_get ht).trans hd₁)
      rw [hends]
      exact List.mem_cons_self
    · simp only [Ends.exposed, List.mem_singleton]
      rintro fd rfl d₁ hd₁
      rw [FiniteMap.get_insert_self] at hd₁
      cases hd₁
      rfl
    · simpa [Ends.writers, Ends.shielded, Ends.exposed] using hne
  · cases hunset

/-- Some of the parent's numbers of the pipe are closed. -/
theorem Sole.of_close (h : q.Sole) (ht : q.procs.get .parent = some t) {ends : Ends}
    (hget : ∀ fd, t'.get fd = none ∨ t'.get fd = t.get fd)
    (hwriters : ∀ fd, fd ∈ ends.writers ↔ fd ∈ q.ends.writers ∧ t'.get fd = t.get fd)
    (hshielded : ends.shielded = []) (hexposed : ends.exposed ⊆ q.ends.exposed)
    (hnodup : ends.writers.Nodup) (hmade : ends ≠ .unmade) :
    Sole { q with procs := q.procs.insert .parent t', ends := ends } := by
  refine h.of_parent (fun fd => ?_) (by simp [hshielded]) (fun fd hfd d hd => ?_) hnodup hmade
  · rw [hwriters fd, ← h.parent_get ht fd]
    rcases hget fd with hnone | heq
    · rw [hnone]
      constructor
      · rintro ⟨d, ⟨⟩, -⟩
      · rintro ⟨⟨d, hd, hw⟩, heq⟩
        rw [← heq] at hd
        cases hd
    · rw [heq]
      simp
  · rcases hget fd with hnone | heq
    · rw [hnone] at hd
      cases hd
    · rw [heq] at hd
      exact h.exposed fd (hexposed hfd) d ((desc_of_get ht).trans hd)

theorem get_erase_cases (t : Fds) (fd fd' : RawFd) :
    (t.erase fd).get fd' = none ∨ (t.erase fd).get fd' = t.get fd' := by
  by_cases h : fd' = fd
  · subst h
    exact .inl FiniteMap.get_erase_self
  · exact .inr (FiniteMap.get_erase_of_ne h)

/-- Closing an open number shows. -/
theorem get_erase_eq_iff {fd' : RawFd} (hopen : (t.get fd).isSome) :
    (t.erase fd).get fd' = t.get fd' ↔ fd' ≠ fd := by
  constructor
  · rintro heq rfl
    rw [FiniteMap.get_erase_self] at heq
    rw [← heq] at hopen
    cases hopen
  · exact FiniteMap.get_erase_of_ne

theorem Sole.writer_open (h : q.Sole) (ht : q.procs.get .parent = some t) (fd : RawFd)
    (hfd : fd ∈ q.ends.writers) : (t.get fd).isSome := by
  obtain ⟨d, hd, -⟩ := (h.parent_get ht fd).mpr hfd
  simp [hd]

/-- The original of the duplicate is dropped. -/
theorem Sole.dropWriter (h : q.Sole) (hdrop : q.dropWriter = some q') : q'.Sole := by
  unfold Kernel.dropWriter at hdrop
  split at hdrop
  · rename_i reader writer dup hends
    obtain ⟨q₁, hupdate, rfl⟩ := Option.map_eq_some_iff.mp hdrop
    obtain ⟨t, ht, rfl⟩ := Option.map_eq_some_iff.mp hupdate
    have hopen := h.writer_open ht writer (by simp [hends, Ends.writers, Ends.shielded])
    have hne : writer ≠ dup := by
      simpa [hends, Ends.writers, Ends.shielded, Ends.exposed] using h.nodup
    refine h.of_close ht (get_erase_cases t writer) (fun fd => ?_) rfl ?_ ?_ (by simp)
    · rw [hends, get_erase_eq_iff hopen]
      simp only [Ends.writers, Ends.shielded, Ends.exposed, List.nil_append, List.singleton_append,
        List.mem_cons, List.not_mem_nil, or_false]
      constructor
      · rintro rfl
        exact ⟨.inr rfl, hne.symm⟩
      · rintro ⟨rfl | rfl, hfd⟩
        · exact absurd rfl hfd
        · rfl
    · rw [hends]
      exact List.Subset.refl _
    · exact List.nodup_singleton dup
  · cases hdrop

/-- The parent's duplicate is dropped. -/
theorem Sole.takePipes (h : q.Sole) (htake : q.takePipes = some q') : q'.Sole := by
  unfold Kernel.takePipes at htake
  split at htake
  · rename_i reader dup hends
    obtain ⟨q₁, hupdate, rfl⟩ := Option.map_eq_some_iff.mp htake
    obtain ⟨t, ht, rfl⟩ := Option.map_eq_some_iff.mp hupdate
    have hopen := h.writer_open ht dup
      (by simp [hends, Ends.writers, Ends.shielded, Ends.exposed])
    refine h.of_close ht (get_erase_cases t dup) (fun fd => ?_) rfl (List.nil_subset _)
      List.nodup_nil (by simp)
    rw [hends, get_erase_eq_iff hopen]
    simp [Ends.writers, Ends.shielded, Ends.exposed]
  · cases htake

/-- The parent drops what it has. -/
theorem Sole.dropEnds (h : q.Sole) (hdrop : q.dropEnds = some q') : q'.Sole := by
  obtain ⟨q₁, hupdate, rfl⟩ := Option.map_eq_some_iff.mp hdrop
  obtain ⟨t, ht, rfl⟩ := Option.map_eq_some_iff.mp hupdate
  refine h.of_close ht (fun fd => ?_) (fun fd => ?_) rfl (List.nil_subset _) List.nodup_nil
    (by simp)
  · rw [get_closeAll]
    split
    · exact .inl rfl
    · exact .inr rfl
  · simp only [Ends.writers, Ends.shielded, Ends.exposed, List.append_nil, List.not_mem_nil,
      false_iff, not_and]
    intro hfd heq
    have hopen := h.writer_open ht fd hfd
    rw [← heq, get_closeAll, if_pos (Ends.writers_subset_owned hfd)] at hopen
    cases hopen

/-! ## The child -/

/-- What a process started from a table has: the descriptors without the flag, which may have
been cleared for it. -/
theorem exec_preExec (h : preExec t fds = some t') (hd : (exec t').get fd = some d) :
    (t.get fd).map Desc.file = some d.file ∧
      (fd ∉ fds → t.get fd = some d ∧ d.cloexec = false) := by
  obtain ⟨hother, hfile⟩ := preExec_eq_some h
  obtain ⟨hd, hflag⟩ := FiniteMap.get_filter_eq_some.mp hd
  refine ⟨by rw [← hfile fd, hd]; rfl, fun hfd => ⟨(hother fd hfd).symm.trans hd, ?_⟩⟩
  simpa using hflag

/-- A descriptor without the flag is passed on. -/
theorem exec_preExec_of_exposed (h : preExec t fds = some t') (hd : t.get fd = some d)
    (hflag : d.cloexec = false) : ∃ d', (exec t').get fd = some d' ∧ d'.file = d.file := by
  induction fds generalizing t d with
  | nil =>
    cases h
    exact ⟨d, FiniteMap.get_filter_eq_some.mpr ⟨hd, by simp [hflag]⟩, rfl⟩
  | cons fd₀ fds ih =>
    obtain ⟨t₁, hunset, hrest⟩ := Option.bind_eq_some_iff.mp h
    obtain ⟨d₀, hd₀, rfl⟩ := Option.map_eq_some_iff.mp hunset
    by_cases hfd : fd = fd₀
    · subst hfd
      rw [hd] at hd₀
      cases hd₀
      have hcleared : (t.insert fd { d with cloexec := false }).get fd
          = some { d with cloexec := false } := FiniteMap.get_insert_self
      obtain ⟨d', hd', hfile⟩ := ih hrest hcleared rfl
      exact ⟨d', hd', hfile⟩
    · exact ih hrest ((FiniteMap.get_insert_of_ne hfd).trans hd) hflag

/-- **A step of the child with the pipe**: its table and its number change. -/
theorem Sole.of_child (h : q.Sole) (hends : q'.ends = q.ends) (hw : q'.writeEnd = q.writeEnd)
    (hne : ∀ pid fd, pid ≠ .child → q'.desc pid fd = q.desc pid fd)
    (hchild : ∀ fd, q'.Holds .child fd ↔ q'.childEnd = some fd)
    (hflag : ∀ fd, q'.childEnd = some fd → ∀ d, q'.desc .child fd = some d → d.cloexec = false) :
    q'.Sole := by
  refine ⟨fun fd => ?_, hchild, fun n fd => ?_, ?_, ?_, hflag, hends ▸ h.nodup,
    hends ▸ hw ▸ h.unmade⟩
  · rw [holds_congr hw (hne .parent fd (by simp)), hends]
    exact h.parent fd
  · rw [holds_congr hw (hne (.other n) fd (by simp))]
    exact h.other n fd
  · rw [hends]
    exact fun fd hfd d hd => h.shielded fd hfd d ((hne .parent fd (by simp)).symm.trans hd)
  · rw [hends]
    exact fun fd hfd d hd => h.exposed fd hfd d ((hne .parent fd (by simp)).symm.trans hd)

/-- The child is started: it has the duplicate, without the flag. -/
theorem Sole.execUpgraded (h : q.Sole) (hexec : q.execUpgraded fds = some q') : q'.Sole := by
  unfold Kernel.execUpgraded at hexec
  split at hexec
  · rename_i reader dup hends
    obtain ⟨t, ht, hexec⟩ := Option.bind_eq_some_iff.mp hexec
    obtain ⟨t', hpre, heq⟩ := Option.map_eq_some_iff.mp hexec
    have hprocs : q'.procs = q.procs.insert .child (exec t') := by rw [← heq]
    have hw' : q'.writeEnd = q.writeEnd := by rw [← heq]
    have hchild' : q'.childEnd = some dup := by rw [← heq]
    obtain ⟨d, hd, hw⟩ := (h.parent dup).mpr (by simp [hends, Ends.writers, Ends.shielded,
      Ends.exposed])
    have hflag := h.exposed dup (by simp [hends, Ends.exposed]) d hd
    obtain ⟨d', hd', hfile⟩ := exec_preExec_of_exposed hpre ((desc_of_get ht).symm.trans hd) hflag
    refine h.of_child (by rw [← heq]) hw' (fun pid fd => desc_insert_of_ne hprocs)
      (fun fd => ?_) fun fd _ d₁ hd₁ => ?_
    · rw [hchild', Option.some.injEq]
      constructor
      · rintro ⟨d₁, hd₁, hw₁⟩
        rw [desc_insert_self hprocs] at hd₁
        -- the parent had the write end under the same number
        obtain ⟨d₂, hd₂, hfile₂⟩ := Option.map_eq_some_iff.mp (exec_preExec hpre hd₁).1
        have hmem := (h.parent_get ht fd).mp ⟨d₂, hd₂, by rw [← hw', hw₁, hfile₂]⟩
        simpa [hends, Ends.writers, Ends.shielded, Ends.exposed, eq_comm] using hmem
      · rintro rfl
        exact ⟨d', (desc_insert_self hprocs).trans hd', by rw [hw', hw, hfile]⟩
    · rw [desc_insert_self hprocs] at hd₁
      simpa using (FiniteMap.get_filter_eq_some.mp hd₁).2
  · cases hexec

/-- The child writes to its end, closes it, or exits. -/
theorem Sole.childAct (h : q.Sole) {a : ChildAct} (hact : q.childAct a = some q') : q'.Sole := by
  cases a with
  | write b =>
    simp only [Kernel.childAct] at hact
    split at hact <;> cases hact
    exact h
  | close =>
    obtain ⟨fd, hfd, hact⟩ := Option.bind_eq_some_iff.mp hact
    obtain ⟨q₁, hupdate, rfl⟩ := Option.map_eq_some_iff.mp hact
    obtain ⟨t, ht, rfl⟩ := Option.map_eq_some_iff.mp hupdate
    refine h.of_child rfl rfl (fun pid fd => desc_insert_of_ne rfl) (fun fd' => ?_)
      (by rintro _ ⟨⟩)
    simp only [reduceCtorEq, iff_false]
    rintro ⟨d, hd, hw⟩
    rw [desc_insert_self (q := q) rfl] at hd
    by_cases hne : fd' = fd
    · subst hne
      rw [FiniteMap.get_erase_self] at hd
      cases hd
    · rw [FiniteMap.get_erase_of_ne hne, ← desc_of_get ht] at hd
      have heq := (h.child fd').mp ⟨d, hd, hw⟩
      rw [hfd, Option.some.injEq] at heq
      exact hne heq.symm
  | exit =>
    cases hact
    refine h.of_child rfl rfl (fun pid fd hpid => ?_) (fun fd => ?_) (by rintro _ ⟨⟩)
    · simp [desc, hpid]
    · simp only [reduceCtorEq, iff_false]
      rintro ⟨d, hd, -⟩
      simp [desc] at hd

/-! ## Other processes -/

/-- **A command is started** by a process that does not have the write end open without the
flag: its process does not get it. -/
theorem Sole.spawn (h : q.Sole) {n : ℕ} (hspares : q.spares pid = true)
    (hspawn : q.spawn pid n fds = some q') : q'.Sole := by
  unfold Kernel.spawn at hspawn
  split at hspawn
  · rename_i hguard
    simp only [Bool.and_eq_true, List.all_eq_true, decide_eq_true_eq] at hguard
    obtain ⟨-, hfds⟩ := hguard
    obtain ⟨t, ht, hspawn⟩ := Option.bind_eq_some_iff.mp hspawn
    obtain ⟨t', hpre, rfl⟩ := Option.map_eq_some_iff.mp hspawn
    refine h.of_desc rfl rfl rfl fun pid' fd => ?_
    by_cases hpid : pid' = .other n
    · subst hpid
      refine .inr ⟨List.not_mem_nil, ?_⟩
      rintro ⟨d, hd, hw⟩
      rw [desc_insert_self (q := q) rfl] at hd
      obtain ⟨hfile, hkept⟩ := exec_preExec hpre hd
      -- the process that starts it has the write end under the same number, without the flag
      obtain ⟨d₀, hd₀, hfile⟩ := Option.map_eq_some_iff.mp hfile
      have hold : q.Holds pid fd := ⟨d₀, (desc_of_get ht).trans hd₀, hw.trans (by rw [hfile])⟩
      have howned := h.owned hold
      obtain ⟨hd, hflag⟩ := hkept fun hmem => hfds fd hmem howned
      rw [← desc_of_get ht] at hd
      cases pid with
      | parent =>
        have hmem := (h.parent fd).mp hold
        rw [Ends.writers, List.isEmpty_iff.mp hspares, List.append_nil] at hmem
        have := h.shielded fd hmem d hd
        rw [hflag] at this
        cases this
      | child =>
        have heq := (h.child fd).mp hold
        simp only [spares, Option.isNone_iff_eq_none] at hspares
        rw [hspares] at heq
        cases heq
      | other m => exact h.other m fd hold
    · exact .inl (desc_insert_of_ne rfl hpid)
  · cases hspawn

/-- Any other start of a command gives the write end away. -/
theorem Sole.not_confined (h : q.Sole) {n : ℕ} (hspares : q.spares pid = false)
    (hspawn : q.spawn pid n fds = some q') : ¬ q'.Confined := by
  unfold Kernel.spawn at hspawn
  split at hspawn
  · obtain ⟨t, ht, hspawn⟩ := Option.bind_eq_some_iff.mp hspawn
    obtain ⟨t', hpre, rfl⟩ := Option.map_eq_some_iff.mp hspawn
    have hexposed : ∃ fd d, q.desc pid fd = some d ∧ q.writeEnd = some d.file ∧
        d.cloexec = false := by
      cases pid with
      | parent =>
        obtain ⟨fd, hfd⟩ : ∃ fd, fd ∈ q.ends.exposed := by
          refine List.exists_mem_of_ne_nil _ fun hnil => ?_
          simp [spares, hnil] at hspares
        obtain ⟨d, hd, hw⟩ := (h.parent fd).mpr (List.mem_append_right _ hfd)
        exact ⟨fd, d, hd, hw, h.exposed fd hfd d hd⟩
      | child =>
        obtain ⟨fd, hfd⟩ : ∃ fd, q.childEnd = some fd := by
          refine Option.isSome_iff_exists.mp ?_
          simpa [spares, Option.isNone_iff_eq_none, Option.ne_none_iff_isSome] using hspares
        obtain ⟨d, hd, hw⟩ := (h.child fd).mpr hfd
        exact ⟨fd, d, hd, hw, h.childExposed fd hfd d hd⟩
      | other m => cases hspares
    obtain ⟨fd, d, hd, hw, hflag⟩ := hexposed
    rw [desc_of_get ht] at hd
    obtain ⟨d', hd', hfile⟩ := exec_preExec_of_exposed hpre hd hflag
    intro hconfined
    have hold : Kernel.Holds { q with procs := q.procs.insert (.other n) (exec t') } (.other n)
        fd := ⟨d', (desc_insert_self rfl).trans hd', by rw [hfile]; exact hw⟩
    rcases hconfined (.other n) fd hold with heq | ⟨heq, -⟩ <;> cases heq
  · cases hspawn

theorem Sole.exit (h : q.Sole) {n : ℕ} (hexit : q.exit n = some q') : q'.Sole := by
  cases hexit
  refine h.of_desc rfl rfl rfl fun pid fd => ?_
  by_cases hpid : pid = .other n
  · subst hpid
    refine .inr ⟨List.not_mem_nil, ?_⟩
    rintro ⟨d, hd, -⟩
    simp [desc] at hd
  · exact .inl (by simp [desc, hpid])

/-- A number that is not the pipe's changes, and does not come to refer to the write end. -/
theorem Sole.of_number (h : q.Sole) (ht : q.procs.get pid = some t) (hfd : fd ∉ q.owned pid)
    (hother : ∀ fd', fd' ≠ fd → t'.get fd' = t.get fd')
    (hnew : ∀ d, t'.get fd = some d → q.writeEnd ≠ some d.file) :
    Sole { q with procs := q.procs.insert pid t' } := by
  refine h.of_desc rfl rfl rfl fun pid' fd' => ?_
  by_cases hpid : pid' = pid
  · subst hpid
    rw [desc_insert_self (q := q) rfl, desc_of_get ht]
    by_cases hne : fd' = fd
    · subst hne
      refine .inr ⟨hfd, ?_⟩
      rintro ⟨d, hd, hw⟩
      rw [desc_insert_self (q := q) rfl] at hd
      exact hnew d hd hw
    · exact .inl (hother fd' hne)
  · exact .inl (desc_insert_of_ne rfl hpid)

theorem Sole.assign (h : q.Sole) (hassign : q.assign pid fd d = some q') : q'.Sole := by
  unfold Kernel.assign at hassign
  split at hassign
  · rename_i hguard
    obtain ⟨hfd, hfile⟩ := hguard
    obtain ⟨t, ht, rfl⟩ := Option.map_eq_some_iff.mp hassign
    refine h.of_number ht hfd (fun fd' hne => FiniteMap.get_insert_of_ne hne) fun d' hd' => ?_
    rw [FiniteMap.get_insert_self] at hd'
    cases hd'
    exact hfile
  · cases hassign

theorem Sole.close (h : q.Sole) (hclose : q.close pid fd = some q') : q'.Sole := by
  unfold Kernel.close at hclose
  split at hclose
  · rename_i hfd
    obtain ⟨t, ht, rfl⟩ := Option.map_eq_some_iff.mp hclose
    refine h.of_number ht hfd (fun fd' hne => FiniteMap.get_erase_of_ne hne) fun d' hd' => ?_
    rw [FiniteMap.get_erase_self] at hd'
    cases hd'
  · cases hclose

/-! ## What the operations leave alone -/

/-- The parent and the child are there, or not, as before, and the child has its end. -/
structure Steady (q q' : Kernel) : Prop where
  parent : (q'.procs.get .parent).isSome = (q.procs.get .parent).isSome
  child : (q'.procs.get .child).isSome = (q.procs.get .child).isSome
  childEnd : q'.childEnd = q.childEnd

/-- The table of a process changes. -/
theorem steady_insert (ht : q.procs.get pid = some t) (hprocs : q'.procs = q.procs.insert pid t')
    (hchild : q'.childEnd = q.childEnd) : q.Steady q' := by
  have hsame : ∀ pid', (q'.procs.get pid').isSome = (q.procs.get pid').isSome := by
    intro pid'
    rw [hprocs]
    by_cases hpid : pid' = pid
    · subst hpid
      rw [FiniteMap.get_insert_self, ht]
      rfl
    · rw [FiniteMap.get_insert_of_ne hpid]
  exact ⟨hsame .parent, hsame .child, hchild⟩

theorem steady_pipe {reader writer : RawFd} {readEnd writeEnd : ℕ}
    (h : q.pipe reader writer readEnd writeEnd = some q') : q.Steady q' := by
  unfold Kernel.pipe at h
  split at h
  · obtain ⟨q₁, hupdate, rfl⟩ := Option.map_eq_some_iff.mp h
    obtain ⟨t, ht, rfl⟩ := Option.map_eq_some_iff.mp hupdate
    exact steady_insert ht rfl rfl
  · cases h

theorem steady_clone (h : q.clone = some q') : q.Steady q' := by
  unfold Kernel.clone at h
  split at h
  · obtain ⟨t, ht, h⟩ := Option.bind_eq_some_iff.mp h
    obtain ⟨r, -, rfl⟩ := Option.map_eq_some_iff.mp h
    exact steady_insert ht rfl rfl
  · cases h

theorem steady_unset (h : q.unset = some q') : q.Steady q' := by
  unfold Kernel.unset at h
  split at h
  · obtain ⟨t, ht, h⟩ := Option.bind_eq_some_iff.mp h
    obtain ⟨t', -, rfl⟩ := Option.map_eq_some_iff.mp h
    exact steady_insert ht rfl rfl
  · cases h

theorem steady_dropWriter (h : q.dropWriter = some q') : q.Steady q' := by
  unfold Kernel.dropWriter at h
  split at h
  · obtain ⟨q₁, hupdate, rfl⟩ := Option.map_eq_some_iff.mp h
    obtain ⟨t, ht, rfl⟩ := Option.map_eq_some_iff.mp hupdate
    exact steady_insert ht rfl rfl
  · cases h

theorem steady_takePipes (h : q.takePipes = some q') :
    q.Steady q' ∧ q'.ends.beforeTake = false := by
  unfold Kernel.takePipes at h
  split at h
  · obtain ⟨q₁, hupdate, rfl⟩ := Option.map_eq_some_iff.mp h
    obtain ⟨t, ht, rfl⟩ := Option.map_eq_some_iff.mp hupdate
    exact ⟨steady_insert ht rfl rfl, rfl⟩
  · cases h

theorem steady_dropEnds (h : q.dropEnds = some q') :
    q.Steady q' ∧ q'.ends.beforeTake = false := by
  obtain ⟨q₁, hupdate, rfl⟩ := Option.map_eq_some_iff.mp h
  obtain ⟨t, ht, rfl⟩ := Option.map_eq_some_iff.mp hupdate
  exact ⟨steady_insert ht rfl rfl, rfl⟩

theorem steady_assign (h : q.assign pid fd d = some q') : q.Steady q' ∧ q'.ends = q.ends := by
  unfold Kernel.assign at h
  split at h
  · obtain ⟨t, ht, rfl⟩ := Option.map_eq_some_iff.mp h
    exact ⟨steady_insert ht rfl rfl, rfl⟩
  · cases h

theorem steady_close (h : q.close pid fd = some q') : q.Steady q' ∧ q'.ends = q.ends := by
  unfold Kernel.close at h
  split at h
  · obtain ⟨t, ht, rfl⟩ := Option.map_eq_some_iff.mp h
    exact ⟨steady_insert ht rfl rfl, rfl⟩
  · cases h

theorem steady_spawn {n : ℕ} (h : q.spawn pid n fds = some q') :
    q.Steady q' ∧ q'.ends = q.ends := by
  unfold Kernel.spawn at h
  split at h
  · obtain ⟨t, -, h⟩ := Option.bind_eq_some_iff.mp h
    obtain ⟨t', -, rfl⟩ := Option.map_eq_some_iff.mp h
    exact ⟨⟨by simp, by simp, rfl⟩, rfl⟩
  · cases h

theorem steady_exit {n : ℕ} (h : q.exit n = some q') : q.Steady q' ∧ q'.ends = q.ends := by
  cases h
  exact ⟨⟨by simp, by simp, rfl⟩, rfl⟩

end Kernel

end WriteEnd
