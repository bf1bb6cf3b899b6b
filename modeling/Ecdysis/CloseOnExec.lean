/-
# What an exec passes on

A descriptor survives `exec` unless it is close-on-exec.  The registry sets the flag of
what it hands out (`take`) and of what it keeps (`add`), closes what nobody claimed
(`close_inherited`), and clears the flag of what a child is to have only in the forked
copy (`pre_exec`); the two pipe ends a child is told about in its environment are
duplicates whose flag is cleared in the parent (`listener_pipes`, `ready_pipes`).

`Host` is a process with its registry, the pipes of the upgrade under way and the
numbers it has handed out.  Its numbers are sorted by their flag (`Host.Sound`):
unclaimed inherited numbers, the child's own ready pipe and the passed pipe ends are
exposed, all others shielded.

* `Host.sound_of_generation` : this holds throughout every generation of a chain.
* `child_inherits_its_list` : so, after `ready`, any other command inherits nothing, and
  an upgrade child exactly its list and its two pipe ends.
-/
import Ecdysis.Generations

open FirstMatch

/-! ## The pipes of an upgrade -/

/-- What becomes of `os_pipe::pipe`: it fails, or it makes the two ends of a pipe, which
are close-on-exec. -/
inductive PipeEnds
  | failed (msg : String)
  | made (reader writer : RawFd) (readEnd writeEnd : ℕ)

/-- Why a pipe cannot be set up: it cannot be made, or its end cannot be duplicated. -/
inductive PipeError
  | pipe (msg : String)
  | dup (e : Errno)
  deriving DecidableEq

/-- The ends of a pipe that is set up: the duplicate that is passed to the child, and the
other end, which the parent keeps. -/
structure PassedPipe where
  passed : RawFd
  kept : RawFd
  deriving DecidableEq

namespace Proc

/-- `unset_cloexec` in the process itself. -/
def unsetCloexec (p : Proc) (fd : RawFd) : Option Proc :=
  (p.table.unsetCloexec fd).map fun t => { p with table := t }

/-- The common shape of `listener_pipes` and `ready_pipes`: make a pipe, duplicate the end
that is to be passed, clear the flag of the duplicate, and drop the end itself. -/
def pipeWith (p : Proc) (c : PipeEnds) (passesReader : Bool) :
    Option (Except PipeError PassedPipe × Proc) :=
  match c with
  | .failed msg => some (.error (.pipe msg), p)
  | .made reader writer readEnd writeEnd =>
    let q := (p.openFd reader ⟨readEnd, true⟩).openFd writer ⟨writeEnd, true⟩
    let own := if passesReader then reader else writer
    let kept := if passesReader then writer else reader
    match q.cloneFd own with
    | .error e => some (.error (.dup e), (q.closeFdQuiet own).closeFdQuiet kept)
    | .ok (dup, q') =>
      (q'.unsetCloexec dup).map fun r => (.ok ⟨dup, kept⟩, r.closeFdQuiet own)

/-- `listener_pipes` passes the reading end on. -/
def listenerPipes (p : Proc) (c : PipeEnds) : Option (Except PipeError PassedPipe × Proc) :=
  p.pipeWith c true

/-- `ready_pipes` passes the writing end on. -/
def readyPipes (p : Proc) (c : PipeEnds) : Option (Except PipeError PassedPipe × Proc) :=
  p.pipeWith c false

/-- The inherited number a request for `k` claims. -/
def claimed (p : Proc) (k : SockInfo) : List RawFd :=
  ((p.inheritedFds.find? fun li => li.sockInfo == k).map ListenerInfo.fd).toList

end Proc

/-! ## New numbers -/

/-- The number of a new socket is free. -/
def Creation.isFree (c : Creation SockInfo) (t : Table) : Bool :=
  match c with
  | .failed _ => true
  | .created fd _ _ => t fd = none

/-- The numbers of a new pair are free and distinct. -/
def Pair.isFree (c : Pair) (t : Table) : Bool :=
  match c with
  | .failed _ => true
  | .made toChild childs _ _ => t toChild = none ∧ t childs = none ∧ childs ≠ toChild

/-- The numbers of a new pipe are free and distinct. -/
def PipeEnds.isFree (c : PipeEnds) (t : Table) : Bool :=
  match c with
  | .failed _ => true
  | .made reader writer _ _ => t reader = none ∧ t writer = none ∧ writer ≠ reader

/-- The number of the new socket a listening method returned. -/
def Listened.created : Listened → List RawFd
  | .ok (.created, fd) => [fd]
  | _ => []

/-! ## Processes whose numbers are sorted by the flag -/

namespace Proc

/-- The registry's unclaimed numbers and those of `E` are exposed, the registry's numbers
in use and those of `S` are shielded. -/
def Guarded (p : Proc) (E S : List RawFd) : Prop :=
  p.table.Sorts Desc.cloexec (p.inheritedFds.map ListenerInfo.fd ++ E)
    (p.usedFds.map ListenerInfo.fd ++ S)

variable {p q : Proc} {E S L : List RawFd} {fd fd' : RawFd} {k : SockInfo} {item : ListenerInfo}
  {d : Desc}

/-- Nothing but the table and the registry matters. -/
theorem Guarded.perm {A B : List RawFd} (h : p.Guarded E S) (hE : E.Perm A)
    (hS : S.Perm B) : p.Guarded A B :=
  DescriptorTable.Sorts.perm h (hE.append_left _) (hS.append_left _)

/-- Fewer numbers. -/
theorem Guarded.sublist {A B : List RawFd} (h : p.Guarded E S) (hE : A.Sublist E)
    (hS : B.Sublist S) : p.Guarded A B :=
  DescriptorTable.Sorts.sublist h (hE.append_left _) (hS.append_left _)

/-- A number of `E` or `S` at the head of its list. -/
theorem guarded_cons_exposed :
    p.Guarded (fd :: E) S ↔ p.table.Sorts Desc.cloexec
      (fd :: (p.inheritedFds.map ListenerInfo.fd ++ E)) (p.usedFds.map ListenerInfo.fd ++ S) :=
  ⟨fun h => DescriptorTable.Sorts.perm h List.perm_middle (.refl _),
    fun h => h.perm List.perm_middle.symm (.refl _)⟩

theorem guarded_cons_shielded :
    p.Guarded E (fd :: S) ↔ p.table.Sorts Desc.cloexec
      (p.inheritedFds.map ListenerInfo.fd ++ E) (fd :: (p.usedFds.map ListenerInfo.fd ++ S)) :=
  ⟨fun h => DescriptorTable.Sorts.perm h (.refl _) List.perm_middle,
    fun h => h.perm (.refl _) List.perm_middle.symm⟩

/-- A new descriptor with the flag. -/
theorem Guarded.openFd (h : p.Guarded E S) (hfree : p.table fd = none)
    (hd : d.cloexec = true) : (p.openFd fd d).Guarded E (fd :: S) := by
  rw [guarded_cons_shielded]
  exact h.assign_shielded (h.not_mem_of_free hfree) hd

/-- A descriptor that is not counted may be opened and closed. -/
theorem Guarded.openFd_other (h : p.Guarded E S) (hfree : p.table fd = none) (d : Desc) :
    (p.openFd fd d).Guarded E S :=
  h.assign_of_not_mem (h.not_mem_of_free hfree) d

theorem Guarded.closeFdQuiet_other (h : p.Guarded E S)
    (hfd : fd ∉ p.registered ++ (E ++ S)) : (p.closeFdQuiet fd).Guarded E S := by
  refine DescriptorTable.Sorts.close_of_not_mem h ?_
  intro hmem
  simp only [registered, List.map_append, List.mem_append] at hmem hfd
  tauto

/-- A descriptor with the flag is closed. -/
theorem Guarded.closeFdQuiet (h : p.Guarded E (fd :: S)) : (p.closeFdQuiet fd).Guarded E S := by
  rw [guarded_cons_shielded] at h
  exact h.close_shielded

/-- A descriptor without the flag is closed. -/
theorem Guarded.closeFdQuiet_exposed (h : p.Guarded (fd :: E) S) :
    (p.closeFdQuiet fd).Guarded E S := by
  rw [guarded_cons_exposed] at h
  exact h.close_exposed

/-- The duplicate of a number has the flag. -/
theorem Guarded.cloneFd (h : p.Guarded E S) (hclone : p.cloneFd fd = .ok (fd', q)) :
    q.Guarded E (fd' :: S) := by
  obtain ⟨d, -, -, -, hfree, rfl⟩ := cloneFd_eq_ok hclone
  exact h.openFd hfree rfl

/-- `add` enters a number with the flag. -/
theorem Guarded.add (h : p.Guarded E S) (hadd : p.add item = .ok q) : q.Guarded E S := by
  obtain ⟨n, d, -, -, -, hfree, rfl⟩ := add_eq_ok hadd
  refine ((guarded_cons_shielded.mp (h.openFd (d := { d with cloexec := true }) hfree rfl)).perm
    (.refl _) ?_)
  simp only [List.map_append, List.map_singleton, List.append_assoc, List.singleton_append]
  exact List.perm_middle.symm

/-- `take` sets the flag of what it finds. -/
theorem Guarded.take {r : Option RawFd} (h : p.Guarded E S) (htake : p.take k = some (r, q)) :
    p.claimed k = r.toList ∧ q.Guarded E (r.toList ++ S) := by
  rcases take_eq_some htake with ⟨hnone, rfl, rfl⟩ | ⟨li, d, hfind, rfl, hd, rfl⟩
  · exact ⟨by simp [claimed, hnone], h⟩
  · refine ⟨by simp [claimed, hfind], ?_⟩
    -- the entry leaves the unclaimed ones
    have hperm := ((perm_cons_eraseP hfind).map ListenerInfo.fd).append_right E
    have hshield := (DescriptorTable.Sorts.perm h hperm (.refl _)).shield
      (d := { d with cloexec := true }) rfl
    exact hshield.perm (.refl _) List.perm_middle.symm

/-- `take` opens nothing. -/
theorem take_free {r : Option RawFd} (htake : p.take k = some (r, q))
    (hfree : p.table fd = none) : q.table fd = none := by
  rcases take_eq_some htake with ⟨-, -, rfl⟩ | ⟨li, d, -, -, hd, rfl⟩
  · exact hfree
  · have hne : fd ≠ li.fd := by
      rintro rfl
      rw [hfree] at hd
      cases hd
    exact (p.table.assign_of_ne hne _).trans hfree

/-- `inherit` sets the flag of what it claims, also when nobody gets it. -/
theorem Guarded.inherit {r : Option RawFd} (h : p.Guarded E S)
    (hinh : p.inherit k = some (r, q)) :
    q.Guarded E (p.claimed k ++ S) ∧ (∀ fd, r = some fd → p.claimed k = [fd]) ∧
      (r = none → ∀ fd, p.table fd = none → q.table fd = none) := by
  rcases inherit_eq_some hinh with
    ⟨rfl, rfl, htake⟩ | ⟨fd, q', htake, hadd, rfl⟩ | ⟨fd, e, htake, -, rfl⟩
  · obtain ⟨hclaimed, -⟩ := h.take htake
    rw [hclaimed]
    exact ⟨h, by rintro _ ⟨⟩, fun _ _ hfree => hfree⟩
  · obtain ⟨hclaimed, hq'⟩ := h.take htake
    rw [hclaimed]
    exact ⟨hq'.add hadd, by rintro _ ⟨⟩; rfl, by rintro ⟨⟩⟩
  · obtain ⟨hclaimed, hq⟩ := h.take htake
    rw [hclaimed]
    exact ⟨hq, by rintro _ ⟨⟩, fun _ _ hfree => take_free htake hfree⟩

/-- Shielded numbers are open. -/
theorem Guarded.filter_open (h : p.Guarded E (L ++ S)) :
    L.filter (fun fd => (p.table fd).isSome) = L := by
  refine List.filter_eq_self.mpr fun fd hfd => ?_
  obtain ⟨d, hd, -⟩ := h.shielded fd (List.mem_append_right _ (List.mem_append_left _ hfd))
  rw [hd]
  rfl

/-- **A listening method** leaves what it claimed or made, and has not closed again, with
the flag set. -/
theorem Guarded.listenWith {c : Creation SockInfo} {adopt : Bool} {res : Listened}
    (h : p.Guarded E S) (hfree : c.isFree p.table = true)
    (hlisten : p.listenWith k c adopt = some (res, q)) :
    q.Guarded E (((p.claimed k ++ res.created).filter fun fd => (q.table fd).isSome) ++ S) := by
  rcases listenWith_eq_some hlisten with
    ⟨fd, q', hinh, ⟨-, rfl, rfl⟩ | ⟨-, rfl, rfl⟩⟩ |
    ⟨q', hinh, ⟨msg, -, rfl, rfl⟩ | ⟨fd, file, info, rfl, ⟨hadd, rfl⟩ | ⟨e, -, rfl, rfl⟩⟩⟩
  · obtain ⟨hq, -, -⟩ := h.inherit hinh
    simp only [Listened.created, List.append_nil]
    rw [hq.filter_open]
    exact hq
  -- the number is refused, and closed
  · obtain ⟨hq', hclaimed, -⟩ := h.inherit hinh
    rw [hclaimed fd rfl] at hq' ⊢
    have hclosed : (q'.closeFdQuiet fd).table fd = none := q'.table.close_self fd
    simp only [Listened.created, List.append_nil, List.filter_singleton, hclosed,
      Option.isSome_none, Bool.cond_false]
    exact hq'.closeFdQuiet
  · obtain ⟨hq, -, -⟩ := h.inherit hinh
    simp only [Listened.created, List.append_nil]
    rw [hq.filter_open]
    exact hq
  · obtain ⟨hq', -, hnone⟩ := h.inherit hinh
    have hfd := hnone rfl fd (by simpa [Creation.isFree] using hfree)
    have hq := ((hq'.openFd (d := ⟨file, true⟩) hfd rfl).add hadd).perm (.refl _)
      (B := (p.claimed k ++ [fd]) ++ S) (by simp [List.perm_middle.symm])
    simp only [Listened.created]
    rw [hq.filter_open]
    exact hq
  -- the new socket cannot be registered, and is closed
  · obtain ⟨hq', -, hnone⟩ := h.inherit hinh
    have hfd := hnone rfl fd (by simpa [Creation.isFree] using hfree)
    have hq := (hq'.openFd (d := ⟨file, true⟩) hfd rfl).closeFdQuiet
    simp only [Listened.created, List.append_nil]
    rw [hq.filter_open]
    exact hq

/-- **`unix_datagram_pair`** likewise. -/
theorem Guarded.unixDatagramPair {name : String} {c : Pair}
    {res : Option RawFd × Except ListenError RawFd} (h : p.Guarded E S)
    (hfree : c.isFree p.table = true) (hpair : p.unixDatagramPair name c = some (res, q)) :
    q.Guarded E ((res.1.toList ++ res.2.toOption.toList) ++ S) := by
  obtain ⟨r, q', htake, hor⟩ := unixDatagramPair_eq_some hpair
  obtain ⟨-, hq'⟩ := h.take htake
  rcases hor with ⟨msg, -, rfl, rfl⟩ | ⟨toChild, childs, file, file', rfl, hor⟩
  · simpa [Except.toOption] using hq'
  · simp only [Pair.isFree, Bool.decide_and, Bool.and_eq_true, decide_eq_true_eq] at hfree
    obtain ⟨htoChild, hchilds, hne⟩ := hfree
    have hmade := hq'.openFd (d := ⟨file, true⟩) (take_free htake htoChild) rfl
    have hfree' : (q'.openFd toChild ⟨file, true⟩).table childs = none :=
      (q'.table.assign_of_ne hne _).trans (take_free htake hchilds)
    have hboth := hmade.openFd (d := ⟨file', true⟩) hfree' rfl
    rcases hor with ⟨q₁, hadd, rfl, rfl⟩ | ⟨e, -, rfl, rfl⟩
    · refine (hboth.add hadd).closeFdQuiet.perm (.refl _) ?_
      simp [Except.toOption, List.perm_middle.symm]
    · simpa [Except.toOption] using hboth.closeFdQuiet.closeFdQuiet

/-- The registry of a guarded process is well-formed. -/
theorem Guarded.wf (h : p.Guarded E S) : p.WF := by
  have hsub := h.sublist (List.nil_sublist E) (List.nil_sublist S)
  refine ⟨?_, fun fd hfd => ?_⟩
  · simpa [registered] using hsub.nodup
  · have hmem : fd ∈ p.inheritedFds.map ListenerInfo.fd ++ [] ++
        (p.usedFds.map ListenerInfo.fd ++ []) := by
      simpa [registered] using hfd
    obtain ⟨d, hd⟩ := hsub.isOpen hmem
    rw [hd]
    rfl

/-- A shielded number at the head of its list is not the registry's. -/
theorem Guarded.not_registered (h : p.Guarded E (fd :: S)) : fd ∉ p.registered := by
  have hnot := (guarded_cons_shielded.mp h).not_mem_of_shielded
  simp only [registered, List.map_append, List.mem_append, not_or] at hnot ⊢
  exact ⟨hnot.1.1, hnot.2.1⟩

/-- An exposed number at the head of its list is not the registry's. -/
theorem Guarded.not_registered_exposed (h : p.Guarded (fd :: E) S) : fd ∉ p.registered := by
  have hnot := (guarded_cons_exposed.mp h).not_mem_of_exposed
  simp only [registered, List.map_append, List.mem_append, not_or] at hnot ⊢
  exact ⟨hnot.1.1, hnot.2.1⟩

/-- A pair with free numbers does not come under the registry's. -/
theorem WF.not_registered_of_isFree {c : Pair} (hp : p.WF) (hfree : c.isFree p.table = true)
    (toChild childs : RawFd) (file file' : ℕ) (hc : c = .made toChild childs file file') :
    toChild ∉ p.registered ∧ childs ∉ p.registered := by
  rw [hc] at hfree
  simp only [Pair.isFree, Bool.decide_and, Bool.and_eq_true, decide_eq_true_eq] at hfree
  exact ⟨fun hmem => hp.ne_of_free hfree.1 hmem rfl,
    fun hmem => hp.ne_of_free hfree.2.1 hmem rfl⟩

/-- A socket is turned into one of the runtime's, or closed. -/
theorem Guarded.fromStd (h : p.Guarded E (fd :: S)) (err : Option String) :
    p.Evolves (p.fromStd fd err).2 ∧
      (p.fromStd fd err).2.Guarded E ((p.fromStd fd err).1.toOption.toList ++ S) := by
  cases err with
  | none => exact ⟨.refl _, h⟩
  | some msg => exact ⟨evolves_closeFdQuiet h.not_registered, h.closeFdQuiet⟩

theorem Guarded.mapFromStd {r : Option RawFd} (h : p.Guarded E (r.toList ++ S))
    (err : Option String) :
    p.Evolves (p.mapFromStd r err).2 ∧ (p.mapFromStd r err).2.Guarded E
      (((p.mapFromStd r err).1.bind Except.toOption).toList ++ S) := by
  cases r with
  | none => exact ⟨.refl _, h⟩
  | some fd => exact Guarded.fromStd h err

theorem Guarded.andThenFromStd {r : Except ListenError RawFd}
    (h : p.Guarded E (r.toOption.toList ++ S)) (err : Option String) :
    p.Evolves (p.andThenFromStd r err).2 ∧ (p.andThenFromStd r err).2.Guarded E
      ((p.andThenFromStd r err).1.toOption.toList ++ S) := by
  cases r with
  | error e => exact ⟨.refl _, h⟩
  | ok fd => exact Guarded.fromStd h err

/-- **The method of `TokioEcdysis`** likewise. -/
theorem Guarded.tokioUnixDatagramPair {name : String} {c : Pair} {err err' : Option String}
    {res : Option (Except TokioError RawFd) × Except TokioError RawFd} (h : p.Guarded E S)
    (hfree : c.isFree p.table = true)
    (hpair : p.tokioUnixDatagramPair name c err err' = some (res, q)) :
    p.Evolves q ∧
      q.Guarded E (((res.1.bind Except.toOption).toList ++ res.2.toOption.toList) ++ S) := by
  obtain ⟨⟨⟨r, t⟩, q₁⟩, hinner, heq⟩ := Option.map_eq_some_iff.mp hpair
  cases heq
  have hev := h.wf.evolves_unixDatagramPair (h.wf.not_registered_of_isFree hfree) hinner
  have hq₁ := h.unixDatagramPair hfree hinner
  rw [List.append_assoc] at hq₁
  obtain ⟨hev₁, hq₂⟩ := hq₁.mapFromStd err
  obtain ⟨hev₂, hq⟩ := (hq₂.perm (.refl _) (List.perm_append_comm_assoc ..)).andThenFromStd err'
  refine ⟨(hev.trans hev₁).trans hev₂, hq.perm (.refl _) ?_⟩
  rw [List.append_assoc]
  exact List.perm_append_comm_assoc ..

/-- `unset_cloexec` clears the flag. -/
theorem Guarded.unsetCloexec (h : p.Guarded E (fd :: S)) (hunset : p.unsetCloexec fd = some q) :
    q.inheritedFds = p.inheritedFds ∧ q.usedFds = p.usedFds ∧ q.Guarded (fd :: E) S := by
  obtain ⟨t, ht, rfl⟩ := Option.map_eq_some_iff.mp hunset
  obtain ⟨d, hd, rfl⟩ := Option.map_eq_some_iff.mp ht
  refine ⟨rfl, rfl, ?_⟩
  rw [guarded_cons_exposed]
  exact (guarded_cons_shielded.mp h).expose rfl

/-- **Setting up a pipe** exposes the passed end and keeps the other end, or leaves
nothing. -/
theorem Guarded.pipeWith {c : PipeEnds} {passesReader : Bool}
    {res : Except PipeError PassedPipe} (h : p.Guarded E S) (hfree : c.isFree p.table = true)
    (hpipe : p.pipeWith c passesReader = some (res, q)) :
    q.inheritedFds = p.inheritedFds ∧ q.usedFds = p.usedFds ∧
      ((∃ e, res = .error e ∧ q.Guarded E S) ∨
        ∃ pipe, res = .ok pipe ∧ q.Guarded (pipe.passed :: E) (pipe.kept :: S)) := by
  cases c with
  | failed msg =>
    cases hpipe
    exact ⟨rfl, rfl, .inl ⟨_, rfl, h⟩⟩
  | made reader writer readEnd writeEnd =>
    simp only [PipeEnds.isFree, Bool.decide_and, Bool.and_eq_true, decide_eq_true_eq] at hfree
    obtain ⟨hreader, hwriter, hne⟩ := hfree
    have hwriter' : (p.openFd reader ⟨readEnd, true⟩).table writer = none :=
      (p.table.assign_of_ne hne _).trans hwriter
    have hmade := (h.openFd (d := ⟨readEnd, true⟩) hreader rfl).openFd
      (d := ⟨writeEnd, true⟩) hwriter' rfl
    simp only [Proc.pipeWith] at hpipe
    -- whichever end is passed, the pipe has been made
    set own := if passesReader then reader else writer with hown
    set kept := if passesReader then writer else reader with hkept
    have hends : ((p.openFd reader ⟨readEnd, true⟩).openFd writer ⟨writeEnd, true⟩).Guarded E
        (own :: kept :: S) := by
      cases passesReader
      · exact hmade
      · exact hmade.perm (.refl _) (.swap _ _ _)
    split at hpipe
    · cases hpipe
      exact ⟨rfl, rfl, .inl ⟨_, rfl, hends.closeFdQuiet.closeFdQuiet⟩⟩
    · rename_i dup q' hclone
      obtain ⟨r, hunset, heq⟩ := Option.map_eq_some_iff.mp hpipe
      cases heq
      obtain ⟨hinh, hused, hr⟩ := (hends.cloneFd hclone).unsetCloexec hunset
      obtain ⟨d, -, -, -, -, rfl⟩ := cloneFd_eq_ok hclone
      exact ⟨hinh, hused, .inr ⟨_, rfl, hr.closeFdQuiet⟩⟩

/-- `close_inherited` closes the unclaimed numbers. -/
theorem Guarded.closeInherited (h : p.Guarded E S) : p.closeInherited.Guarded E S :=
  DescriptorTable.Sorts.closeAll_exposed h

end Proc

/-! ## A process with its pipes -/

/-- How far the upgrade under way has come, with the list it was started with: no pipes,
the pipe for the list, and both pipes (`UpgradePipes`). -/
inductive Stage
  | idle
  | half (fds : List ListenerInfo) (listener : PassedPipe)
  | pipes (fds : List ListenerInfo) (listener ready : PassedPipe)

namespace Stage

/-- The list the child is to get. -/
def list : Stage → List ListenerInfo
  | .idle => []
  | .half fds _ | .pipes fds _ _ => fds

/-- The ends that are to be passed to the child. -/
def passed : Stage → List RawFd
  | .idle => []
  | .half _ listener => [listener.passed]
  | .pipes _ listener ready => [listener.passed, ready.passed]

/-- The ends that the parent keeps. -/
def kept : Stage → List RawFd
  | .idle => []
  | .half _ listener => [listener.kept]
  | .pipes _ listener ready => [listener.kept, ready.kept]

end Stage

/-- A process: its registry, its own `ready_notifier`, whether it has called `ready`, the
lists its calls of `upgrade` have begun with, the pipes of the upgrade under way, the pipe
ends that are with its worker threads, and the numbers that have been handed out and are
still open. -/
structure Host where
  proc : Proc
  notifier : Option RawFd
  ready : Bool
  taken : List (List ListenerInfo)
  stage : Stage
  workers : List RawFd
  handed : List RawFd

namespace Host

/-- A process at its start. -/
def init (p : Proc) (notifier : Option RawFd) : Host := ⟨p, notifier, false, [], .idle, [], []⟩

/-- The numbers that the library holds itself. -/
def internal (h : Host) : List RawFd :=
  h.proc.registered ++
    ((h.notifier.toList ++ h.stage.passed) ++ (h.stage.kept ++ h.workers))

/-- The numbers that the library holds or has handed out. -/
def managed (h : Host) : List RawFd := h.internal ++ h.handed

/-- What can happen in a process: the socket methods (`claim` is the way of the systemd
methods to the registry, which have no datagram pairs), the application and the system, the
steps of upgrades, and `ready`. -/
inductive Event
  | listen (r : Request)
  | claim (k : SockInfo)
  | datagramPair (name : String) (c : Pair)
  | tokioPair (name : String) (c : Pair) (errToParent errToChild : Option String)
  | openFd (fd : RawFd) (d : Desc)
  | closeFd (fd : RawFd)
  | setLimit (limit : ℕ)
  | snapshot
  | listenerPipes (i : ℕ) (c : PipeEnds)
  | readyPipes (c : PipeEnds)
  | takePipes
  | closeWorker (fd : RawFd)
  | ready

/-- The upgrade after `listener_pipes`. -/
def afterListenerPipes (h : Host) (fds : List ListenerInfo) (p : Proc) :
    Except PipeError PassedPipe → Host
  | .ok pipe => { h with proc := p, stage := .half fds pipe }
  | .error _ => { h with proc := p }

/-- The upgrade after `ready_pipes`; when it fails, the passed end of the other pipe is
closed by hand, and its kept end is dropped. -/
def afterReadyPipes (h : Host) (fds : List ListenerInfo) (listener : PassedPipe) (p : Proc) :
    Except PipeError PassedPipe → Host
  | .ok pipe => { h with proc := p, stage := .pipes fds listener pipe }
  | .error _ =>
    { h with
      proc := (p.closeFdQuiet listener.passed).closeFdQuiet listener.kept
      stage := .idle }

/-- One step.  New numbers are free, and the application closes none of the library's.
An upgrade that fails ends in `takePipes` too, or in the failure of one of the pipes. -/
def step (h : Host) : Event → Option Host
  | .listen r =>
    if r.creation.isFree h.proc.table then
      (h.proc.listen r).map fun (res, p) =>
        { h with
          proc := p
          handed := ((h.proc.claimed r.key ++ res.created).filter fun fd => (p.table fd).isSome)
            ++ h.handed }
    else none
  | .claim k =>
    if k.isDatagram then none
    else (h.proc.inherit k).map fun (_, p) =>
      { h with proc := p, handed := h.proc.claimed k ++ h.handed }
  | .datagramPair name c =>
    if c.isFree h.proc.table then
      (h.proc.unixDatagramPair name c).map fun (res, p) =>
        { h with proc := p, handed := (res.1.toList ++ res.2.toOption.toList) ++ h.handed }
    else none
  | .tokioPair name c errToParent errToChild =>
    if c.isFree h.proc.table then
      (h.proc.tokioUnixDatagramPair name c errToParent errToChild).map fun (res, p) =>
        { h with
          proc := p
          handed := ((res.1.bind Except.toOption).toList ++ res.2.toOption.toList) ++ h.handed }
    else none
  | .openFd fd d =>
    if h.proc.table fd = none then some { h with proc := h.proc.openFd fd d } else none
  | .closeFd fd =>
    if fd ∈ h.internal then none
    else some { h with
      proc := h.proc.closeFdQuiet fd
      handed := h.handed.filter fun fd' => fd' ≠ fd }
  | .setLimit limit => some { h with proc := { h.proc with limit := limit } }
  | .snapshot => some { h with taken := h.taken ++ [h.proc.getFdsForChild] }
  | .listenerPipes i c =>
    match h.stage, h.taken[i]? with
    | .idle, some fds =>
      if c.isFree h.proc.table then
        (h.proc.listenerPipes c).map fun (res, p) => h.afterListenerPipes fds p res
      else none
    | _, _ => none
  | .readyPipes c =>
    match h.stage with
    | .half fds listener =>
      if c.isFree h.proc.table then
        (h.proc.readyPipes c).map fun (res, p) => h.afterReadyPipes fds listener p res
      else none
    | _ => none
  | .takePipes =>
    match h.stage with
    | .pipes _ listener ready =>
      -- the drop of `FdPair`; the other ends go to the worker threads
      some { h with
        proc := (h.proc.closeFdQuiet listener.passed).closeFdQuiet ready.passed
        stage := .idle
        workers := [listener.kept, ready.kept] ++ h.workers }
    | _ => none
  | .closeWorker fd =>
    if fd ∈ h.workers then
      some { h with proc := h.proc.closeFdQuiet fd, workers := h.workers.erase fd }
    else none
  | .ready =>
    let p := h.proc.closeInherited
    some { h with
      proc := { p with table := p.table.closeAll h.notifier.toList }
      notifier := none
      ready := true }

/-- The upgrade child of a process, after `init_child`: it has read the list, closed the
pipe it came by, and keeps the other as its `ready_notifier`. -/
def spawnChild (h : Host) : Option Host :=
  match h.stage with
  | .pipes fds listener ready =>
    (h.proc.spawnChild fds).map fun c => init (c.closeFdQuiet listener.passed) (some ready.passed)
  | _ => none

end Host

/-- Everything a process that starts as `h₀` can do. -/
def host (h₀ : Host) : TransitionSystem Host Host.Event where
  Init := fun h => h = h₀
  step := Host.step

/-- `h` is the start of the `n`-th process of a chain: the first has an empty registry,
each further one is the upgrade child of the one before it. -/
inductive Host.Generation : ℕ → Host → Prop
  | first {p : Proc} : p.inheritedFds = [] → p.usedFds = [] → Generation 0 (init p none)
  | next {n : ℕ} {h₀ h c : Host} : Generation n h₀ → (host h₀).Reachable h →
      h.spawnChild = some c → Generation (n + 1) c

namespace Host

variable {h h' h₀ c : Host} {e : Event} {n : ℕ}

/-- **The single steps of a process**: what each event requires, and what there is after it. -/
inductive Stepped (h : Host) : Event → Host → Prop
  | listen {r : Request} {res : Listened} {p : Proc} :
      r.creation.isFree h.proc.table = true → h.proc.listen r = some (res, p) →
      Stepped h (.listen r) { h with
        proc := p
        handed := ((h.proc.claimed r.key ++ res.created).filter fun fd => (p.table fd).isSome)
          ++ h.handed }
  | claim {k : SockInfo} {r : Option RawFd} {p : Proc} :
      k.isDatagram = false → h.proc.inherit k = some (r, p) →
      Stepped h (.claim k) { h with proc := p, handed := h.proc.claimed k ++ h.handed }
  | datagramPair {name : String} {c : Pair} {res : Option RawFd × Except ListenError RawFd}
      {p : Proc} :
      c.isFree h.proc.table = true → h.proc.unixDatagramPair name c = some (res, p) →
      Stepped h (.datagramPair name c)
        { h with proc := p, handed := (res.1.toList ++ res.2.toOption.toList) ++ h.handed }
  | tokioPair {name : String} {c : Pair} {err err' : Option String}
      {res : Option (Except TokioError RawFd) × Except TokioError RawFd} {p : Proc} :
      c.isFree h.proc.table = true →
      h.proc.tokioUnixDatagramPair name c err err' = some (res, p) →
      Stepped h (.tokioPair name c err err') { h with
        proc := p
        handed := ((res.1.bind Except.toOption).toList ++ res.2.toOption.toList) ++ h.handed }
  | openFd {fd : RawFd} {d : Desc} : h.proc.table fd = none →
      Stepped h (.openFd fd d) { h with proc := h.proc.openFd fd d }
  | closeFd {fd : RawFd} : fd ∉ h.internal →
      Stepped h (.closeFd fd) { h with
        proc := h.proc.closeFdQuiet fd
        handed := h.handed.filter fun fd' => fd' ≠ fd }
  | setLimit {limit : ℕ} :
      Stepped h (.setLimit limit) { h with proc := { h.proc with limit := limit } }
  | snapshot : Stepped h .snapshot { h with taken := h.taken ++ [h.proc.getFdsForChild] }
  | listenerPipes {i : ℕ} {c : PipeEnds} {fds : List ListenerInfo}
      {res : Except PipeError PassedPipe} {p : Proc} :
      h.stage = .idle → h.taken[i]? = some fds → c.isFree h.proc.table = true →
      h.proc.listenerPipes c = some (res, p) →
      Stepped h (.listenerPipes i c) (h.afterListenerPipes fds p res)
  | readyPipes {c : PipeEnds} {fds : List ListenerInfo} {listener : PassedPipe}
      {res : Except PipeError PassedPipe} {p : Proc} :
      h.stage = .half fds listener → c.isFree h.proc.table = true →
      h.proc.readyPipes c = some (res, p) →
      Stepped h (.readyPipes c) (h.afterReadyPipes fds listener p res)
  | takePipes {fds : List ListenerInfo} {listener ready : PassedPipe} :
      h.stage = .pipes fds listener ready →
      Stepped h .takePipes { h with
        proc := (h.proc.closeFdQuiet listener.passed).closeFdQuiet ready.passed
        stage := .idle
        workers := [listener.kept, ready.kept] ++ h.workers }
  | closeWorker {fd : RawFd} : fd ∈ h.workers →
      Stepped h (.closeWorker fd)
        { h with proc := h.proc.closeFdQuiet fd, workers := h.workers.erase fd }
  | ready :
      Stepped h .ready { h with
        proc := { h.proc.closeInherited with
          table := h.proc.closeInherited.table.closeAll h.notifier.toList }
        notifier := none
        ready := true }

theorem stepped_of_step (hstep : h.step e = some h') : h.Stepped e h' := by
  cases e with
  | listen r | datagramPair name c | tokioPair name c err err' =>
    simp only [Host.step] at hstep
    split at hstep
    · rename_i hfree
      obtain ⟨⟨res, p⟩, hcall, rfl⟩ := Option.map_eq_some_iff.mp hstep
      constructor <;> assumption
    · cases hstep
  | claim k =>
    simp only [Host.step] at hstep
    split at hstep
    · cases hstep
    · rename_i hk
      obtain ⟨⟨r, p⟩, hinh, rfl⟩ := Option.map_eq_some_iff.mp hstep
      exact .claim (by simpa using hk) hinh
  | openFd fd d | closeWorker fd =>
    simp only [Host.step] at hstep
    split at hstep
    · cases hstep
      constructor
      assumption
    · cases hstep
  | closeFd fd =>
    simp only [Host.step] at hstep
    split at hstep
    · cases hstep
    · rename_i hfd
      cases hstep
      exact .closeFd hfd
  | setLimit limit | snapshot | ready =>
    cases hstep
    constructor
  | listenerPipes i c =>
    simp only [Host.step] at hstep
    split at hstep
    · rename_i fds hidle hfds
      split at hstep
      · rename_i hfree
        obtain ⟨⟨res, p⟩, hpipe, rfl⟩ := Option.map_eq_some_iff.mp hstep
        exact .listenerPipes hidle hfds hfree hpipe
      · cases hstep
    · cases hstep
  | readyPipes c =>
    simp only [Host.step] at hstep
    split at hstep
    · rename_i fds listener hstage
      split at hstep
      · rename_i hfree
        obtain ⟨⟨res, p⟩, hpipe, rfl⟩ := Option.map_eq_some_iff.mp hstep
        exact .readyPipes hstage hfree hpipe
      · cases hstep
    · cases hstep
  | takePipes =>
    simp only [Host.step] at hstep
    split at hstep
    · rename_i fds listener ready hstage
      cases hstep
      exact .takePipes hstage
    · cases hstep

/-- Numbers are sorted by their flag, the lists of upgrades are initial parts of the entries
in use, and nothing is exposed after `ready` but the ends passed to a child. -/
structure Sound (h : Host) : Prop where
  guarded : h.proc.Guarded (h.notifier.toList ++ h.stage.passed)
    (h.handed ++ (h.stage.kept ++ h.workers))
  taken : ∀ fds ∈ h.taken, fds <+: h.proc.usedFds
  list : h.stage.list <+: h.proc.usedFds
  settled : h.ready = true → h.proc.inheritedFds = [] ∧ h.notifier = none

/-- A step in which the registry evolves and only the numbers handed out change besides. -/
theorem Sound.of_evolves (hs : h.Sound) {p : Proc} {handed : List RawFd}
    (hev : h.proc.Evolves p)
    (hg : p.Guarded (h.notifier.toList ++ h.stage.passed)
      (handed ++ (h.stage.kept ++ h.workers))) :
    Sound { h with proc := p, handed := handed } := by
  refine ⟨hg, fun fds hfds => (hs.taken fds hfds).trans hev.used, hs.list.trans hev.used, ?_⟩
  intro hready
  obtain ⟨hinh, hnotifier⟩ := hs.settled hready
  refine ⟨List.eq_nil_iff_forall_not_mem.mpr fun li hli => ?_, hnotifier⟩
  have hmem := (hev.inherited li hli).1
  rw [hinh] at hmem
  cases hmem

/-- A step of an upgrade, which leaves the registry alone. -/
theorem Sound.of_stage (hs : h.Sound) {p : Proc} {stage : Stage} {workers : List RawFd}
    (hinh : p.inheritedFds = h.proc.inheritedFds) (hused : p.usedFds = h.proc.usedFds)
    (hlist : stage.list <+: h.proc.usedFds)
    (hg : p.Guarded (h.notifier.toList ++ stage.passed)
      (h.handed ++ (stage.kept ++ workers))) :
    Sound { h with proc := p, stage := stage, workers := workers } :=
  ⟨hg, fun fds hfds => by rw [hused]; exact hs.taken fds hfds, by rw [hused]; exact hlist,
    fun hready => by rw [hinh]; exact hs.settled hready⟩

/-- A free number is not the registry's. -/
theorem Sound.not_registered (hs : h.Sound) {fd : RawFd} (hfree : h.proc.table fd = none) :
    fd ∉ h.proc.registered :=
  fun hmem => hs.guarded.wf.ne_of_free hfree hmem rfl

/-- Nor are the pipe ends. -/
theorem Sound.not_registered_passed (hs : h.Sound) {fd : RawFd} (hfd : fd ∈ h.stage.passed) :
    fd ∉ h.proc.registered := by
  have hperm := List.perm_cons_erase (List.mem_append_right h.notifier.toList hfd)
  exact (hs.guarded.perm hperm (.refl _)).not_registered_exposed

theorem Sound.not_registered_kept (hs : h.Sound) {fd : RawFd} (hfd : fd ∈ h.stage.kept) :
    fd ∉ h.proc.registered := by
  have hperm := List.perm_cons_erase
    (List.mem_append_right h.handed (List.mem_append_left h.workers hfd))
  exact (hs.guarded.perm (.refl _) hperm).not_registered

theorem Sound.not_registered_worker (hs : h.Sound) {fd : RawFd} (hfd : fd ∈ h.workers) :
    fd ∉ h.proc.registered := by
  have hperm := List.perm_cons_erase
    (List.mem_append_right h.handed (List.mem_append_right h.stage.kept hfd))
  exact (hs.guarded.perm (.refl _) hperm).not_registered

/-- The socket methods. -/
theorem Sound.listen (hs : h.Sound) {r : Request} {res : Listened} {p : Proc}
    (hfree : r.creation.isFree h.proc.table = true)
    (hlisten : h.proc.listen r = some (res, p)) :
    Sound { h with
      proc := p
      handed := ((h.proc.claimed r.key ++ res.created).filter fun fd => (p.table fd).isSome)
        ++ h.handed } := by
  rw [Proc.listen_eq] at hlisten
  have hg := hs.guarded.listenWith hfree hlisten
  rw [← List.append_assoc] at hg
  refine hs.of_evolves (hs.guarded.wf.evolves_listenWith ?_ hlisten) hg
  intro fd file info hc
  rw [hc] at hfree
  exact hs.not_registered (by simpa [Creation.isFree] using hfree)

theorem Sound.claim (hs : h.Sound) {k : SockInfo} {r : Option RawFd} {p : Proc}
    (hinh : h.proc.inherit k = some (r, p)) :
    Sound { h with proc := p, handed := h.proc.claimed k ++ h.handed } := by
  have hg := (hs.guarded.inherit hinh).1
  rw [← List.append_assoc] at hg
  exact hs.of_evolves (hs.guarded.wf.evolves_inherit hinh) hg

theorem Sound.datagramPair (hs : h.Sound) {name : String} {c : Pair}
    {res : Option RawFd × Except ListenError RawFd} {p : Proc}
    (hfree : c.isFree h.proc.table = true)
    (hpair : h.proc.unixDatagramPair name c = some (res, p)) :
    Sound { h with
      proc := p
      handed := (res.1.toList ++ res.2.toOption.toList) ++ h.handed } := by
  have hg := hs.guarded.unixDatagramPair hfree hpair
  rw [← List.append_assoc] at hg
  exact hs.of_evolves (hs.guarded.wf.evolves_unixDatagramPair
    (hs.guarded.wf.not_registered_of_isFree hfree) hpair) hg

theorem Sound.tokioPair (hs : h.Sound) {name : String} {c : Pair} {err err' : Option String}
    {res : Option (Except TokioError RawFd) × Except TokioError RawFd} {p : Proc}
    (hfree : c.isFree h.proc.table = true)
    (hpair : h.proc.tokioUnixDatagramPair name c err err' = some (res, p)) :
    Sound { h with
      proc := p
      handed := ((res.1.bind Except.toOption).toList ++ res.2.toOption.toList) ++ h.handed } := by
  obtain ⟨hev, hg⟩ := hs.guarded.tokioUnixDatagramPair hfree hpair
  rw [← List.append_assoc] at hg
  exact hs.of_evolves hev hg

/-- The application closes a number of its own. -/
theorem Sound.closeFd (hs : h.Sound) {fd : RawFd} (hfd : fd ∉ h.internal) :
    Sound { h with
      proc := h.proc.closeFdQuiet fd
      handed := h.handed.filter fun fd' => fd' ≠ fd } := by
  simp only [internal, List.mem_append, not_or] at hfd
  refine hs.of_evolves (Proc.evolves_closeFdQuiet hfd.1) ?_
  refine (hs.guarded.sublist (.refl _) ?_).closeFdQuiet_other ?_
  · exact (List.filter_sublist.append_right _)
  · obtain ⟨hreg, hE, hS⟩ := hfd
    have hfilter : fd ∉ h.handed.filter fun fd' => fd' ≠ fd := by simp
    simp only [List.mem_append, not_or]
    exact ⟨hreg, hE, hfilter, hS⟩

/-- The pipe for the list. -/
theorem Sound.listenerPipes (hs : h.Sound) {fds : List ListenerInfo} {c : PipeEnds}
    {res : Except PipeError PassedPipe} {p : Proc} (hidle : h.stage = .idle)
    (hfds : fds ∈ h.taken) (hfree : c.isFree h.proc.table = true)
    (hpipe : h.proc.listenerPipes c = some (res, p)) :
    (h.afterListenerPipes fds p res).Sound := by
  obtain ⟨hinh, hused, ⟨e, rfl, hg⟩ | ⟨pipe, rfl, hg⟩⟩ := hs.guarded.pipeWith hfree hpipe
  · exact hs.of_stage hinh hused hs.list hg
  · refine hs.of_stage hinh hused (hs.taken fds hfds) (hg.perm ?_ ?_)
    · rw [hidle]
      simpa [Stage.passed] using (List.perm_append_singleton _ _).symm
    · rw [hidle]
      simp [Stage.kept, List.perm_middle.symm]

/-- The pipe for the answer; when it fails, the other is closed. -/
theorem Sound.readyPipes (hs : h.Sound) {fds : List ListenerInfo} {listener : PassedPipe}
    {c : PipeEnds} {res : Except PipeError PassedPipe} {p : Proc}
    (hstage : h.stage = .half fds listener) (hfree : c.isFree h.proc.table = true)
    (hpipe : h.proc.readyPipes c = some (res, p)) :
    (h.afterReadyPipes fds listener p res).Sound := by
  have hlist := hs.list
  obtain ⟨hinh, hused, hcases⟩ := hs.guarded.pipeWith hfree hpipe
  simp only [hstage, Stage.passed, Stage.kept, Stage.list] at hcases hlist
  rcases hcases with ⟨e, rfl, hg⟩ | ⟨pipe, rfl, hg⟩
  · refine hs.of_stage hinh hused List.nil_prefix ?_
    have hg' := (hg.perm (A := listener.passed :: h.notifier.toList)
      (B := listener.kept :: (h.handed ++ h.workers)) ?_ ?_).closeFdQuiet_exposed.closeFdQuiet
    · simpa [Stage.passed, Stage.kept] using hg'
    · exact List.perm_append_singleton _ _
    · exact List.perm_middle
  · refine hs.of_stage hinh hused hlist (hg.perm ?_ ?_)
    · simp only [Stage.passed]
      exact List.perm_middle.symm.trans (.append_left _ (.swap _ _ _))
    · simp only [Stage.kept]
      exact List.perm_middle.symm.trans (.append_left _ (.swap _ _ _))

/-- The drop of the passed ends. -/
theorem Sound.takePipes (hs : h.Sound) {fds : List ListenerInfo} {listener ready : PassedPipe}
    (hstage : h.stage = .pipes fds listener ready) :
    Sound { h with
      proc := (h.proc.closeFdQuiet listener.passed).closeFdQuiet ready.passed
      stage := .idle
      workers := [listener.kept, ready.kept] ++ h.workers } := by
  refine hs.of_stage rfl rfl List.nil_prefix ?_
  have hg := hs.guarded
  simp only [hstage, Stage.passed, Stage.kept] at hg
  have hg' := (hg.perm (A := [listener.passed, ready.passed] ++ h.notifier.toList)
    List.perm_append_comm (.refl _)).closeFdQuiet_exposed.closeFdQuiet_exposed
  simpa [Stage.passed, Stage.kept] using hg'

/-- A worker thread drops its pipe. -/
theorem Sound.closeWorker (hs : h.Sound) {fd : RawFd} (hfd : fd ∈ h.workers) :
    Sound { h with proc := h.proc.closeFdQuiet fd, workers := h.workers.erase fd } := by
  refine hs.of_stage rfl rfl hs.list (hs.guarded.perm (.refl _) ?_).closeFdQuiet
  calc h.handed ++ (h.stage.kept ++ h.workers)
      = (h.handed ++ h.stage.kept) ++ h.workers := (List.append_assoc ..).symm
    List.Perm _ ((h.handed ++ h.stage.kept) ++ fd :: h.workers.erase fd) :=
        (List.perm_cons_erase hfd).append_left _
    List.Perm _ (fd :: ((h.handed ++ h.stage.kept) ++ h.workers.erase fd)) := List.perm_middle
    _ = fd :: (h.handed ++ (h.stage.kept ++ h.workers.erase fd)) := by rw [List.append_assoc]

/-- `ready` closes what is unclaimed, and the process's own pipe. -/
theorem Sound.ready (hs : h.Sound) :
    Sound { h with
      proc := { h.proc.closeInherited with
        table := h.proc.closeInherited.table.closeAll h.notifier.toList }
      notifier := none
      ready := true } :=
  ⟨DescriptorTable.Sorts.closeAll_exposed hs.guarded.closeInherited, hs.taken, hs.list,
    fun _ => ⟨rfl, rfl⟩⟩

/-- **Step lemma.** -/
theorem Sound.step (hs : h.Sound) (hstep : h.step e = some h') : h'.Sound := by
  cases stepped_of_step hstep with
  | listen hfree hlisten => exact hs.listen hfree hlisten
  | claim _ hinh => exact hs.claim hinh
  | datagramPair hfree hpair => exact hs.datagramPair hfree hpair
  | tokioPair hfree hpair => exact hs.tokioPair hfree hpair
  | @openFd fd d hfree =>
    exact hs.of_evolves (Proc.evolves_openFd (hs.not_registered hfree))
      (hs.guarded.openFd_other hfree d)
  | closeFd hfd => exact hs.closeFd hfd
  | setLimit => exact ⟨hs.guarded, hs.taken, hs.list, hs.settled⟩
  | snapshot =>
    refine ⟨hs.guarded, fun fds hfds => ?_, hs.list, hs.settled⟩
    rcases List.mem_append.mp hfds with hfds | hfds
    · exact hs.taken fds hfds
    · rw [List.mem_singleton.mp hfds]
      exact List.prefix_refl _
  | listenerPipes hidle hfds hfree hpipe =>
    exact hs.listenerPipes hidle (List.mem_of_getElem? hfds) hfree hpipe
  | readyPipes hstage hfree hpipe => exact hs.readyPipes hstage hfree hpipe
  | takePipes hstage => exact hs.takePipes hstage
  | closeWorker hfd => exact hs.closeWorker hfd
  | ready => exact hs.ready

theorem sound_of_reachable (h0 : h₀.Sound) (hr : (host h₀).Reachable h) : h.Sound := by
  refine hr.invariant ?_ fun h e h' _ hs hstep => hs.step hstep
  rintro h rfl
  exact h0

end Host

/-! ## The table of a child -/

namespace Table

variable {t t' : Table} {fds : List ListenerInfo} {E S : List RawFd}

/-- `pre_exec` does not panic when the listed numbers are open. -/
theorem exists_preExec (h : ∀ li ∈ fds, (t li.fd).isSome) : ∃ t', t.preExec fds = some t' := by
  induction fds generalizing t with
  | nil => exact ⟨t, rfl⟩
  | cons li fds ih =>
    obtain ⟨d, hd⟩ := Option.isSome_iff_exists.mp (h li List.mem_cons_self)
    have hunset : t.unsetCloexec li.fd = some (t.assign li.fd { d with cloexec := false }) := by
      rw [unsetCloexec, hd, Option.map_some]
    obtain ⟨t', ht'⟩ := ih (t := t.assign li.fd { d with cloexec := false }) (by
      intro li' hli'
      by_cases heq : li'.fd = li.fd
      · rw [heq, DescriptorTable.assign_self]
        rfl
      · rw [DescriptorTable.assign_of_ne _ heq]
        exact h li' (List.mem_cons_of_mem _ hli'))
    exact ⟨t', by rw [preExec, hunset, Option.bind_some, ht']⟩

/-- What the table of a child holds: the listed numbers, without their flag, and what had
no flag before. -/
theorem exec_preExec_apply (h : t.preExec fds = some t') (fd : RawFd) :
    t'.exec fd = if fd ∈ fds.map ListenerInfo.fd
      then (t fd).map fun d => { d with cloexec := false }
      else t.exec fd := by
  rw [exec, preExec_apply h fd]
  split
  · cases t fd <;> rfl
  · rfl

/-- An exec drops what has the flag, and only that. -/
theorem exec_of_shielded (h : t.Sorts Desc.cloexec E S) {fd : RawFd} (hfd : fd ∈ S) :
    t.exec fd = none := by
  obtain ⟨d, hd, hflag⟩ := h.shielded fd hfd
  rw [exec, hd]
  simp [hflag]

/-- An exec keeps what has no flag. -/
theorem exec_of_exposed (h : t.Sorts Desc.cloexec E S) {fd : RawFd} (hfd : fd ∈ E) :
    t.exec fd = t fd ∧ (t fd).isSome := by
  obtain ⟨d, hd, hflag⟩ := h.exposed fd hfd
  rw [exec, hd]
  simp [hflag]

/-- **The table of a child** whose list is among the shielded numbers: what was listed and
what was exposed is open, without the flag. -/
theorem sorts_exec_preExec (h : t.Sorts Desc.cloexec E S)
    (hfds : (fds.map ListenerInfo.fd).Sublist S) (hpre : t.preExec fds = some t') :
    t'.exec.Sorts Desc.cloexec (fds.map ListenerInfo.fd ++ E) [] := by
  have hsub := h.sublist (.refl E) hfds
  refine ⟨?_, fun fd hfd => ?_, fun fd hfd => nomatch hfd⟩
  · rw [List.append_nil]
    exact List.perm_append_comm.nodup_iff.mp hsub.nodup
  · rw [exec_preExec_apply hpre]
    by_cases hlisted : fd ∈ fds.map ListenerInfo.fd
    · obtain ⟨d, hd, -⟩ := hsub.shielded fd hlisted
      rw [if_pos hlisted, hd]
      exact ⟨_, rfl, rfl⟩
    · have hE : fd ∈ E := (List.mem_append.mp hfd).resolve_left hlisted
      rw [if_neg hlisted, (exec_of_exposed h hE).1]
      exact h.exposed fd hE

end Table

/-! ## Generations -/

namespace Host

variable {h h' h₀ c : Host} {n : ℕ}

/-- The listed numbers are among the shielded ones. -/
theorem Sound.list_sublist (hs : h.Sound) :
    (h.stage.list.map ListenerInfo.fd).Sublist
      (h.proc.usedFds.map ListenerInfo.fd ++ (h.handed ++ (h.stage.kept ++ h.workers))) :=
  (hs.list.sublist.map _).trans (List.sublist_append_left _ _)

/-- A child starts sound. -/
theorem Sound.spawnChild (hs : h.Sound) (hc : h.spawnChild = some c) : c.Sound := by
  unfold Host.spawnChild at hc
  split at hc
  · rename_i fds listener ready hstage
    obtain ⟨p, hp, rfl⟩ := Option.map_eq_some_iff.mp hc
    have hlist := hs.list_sublist
    have hsorts := hs.guarded
    simp only [hstage, Stage.passed, Stage.list] at hlist hsorts
    obtain ⟨hinh, hused, -, -⟩ := Proc.spawnChild_eq_some hp
    obtain ⟨t, hpre, hp⟩ := Option.bind_eq_some_iff.mp hp
    obtain ⟨bs, -, hp⟩ := Option.bind_eq_some_iff.mp hp
    obtain ⟨inherited, -, rfl⟩ := Option.map_eq_some_iff.mp hp
    -- what else the parent had exposed is not this process's concern
    have hpassed := (Table.sorts_exec_preExec hsorts hlist hpre).sublist
      (A := fds.map ListenerInfo.fd ++ [listener.passed, ready.passed])
      (((List.sublist_append_right _ _).trans (List.sublist_append_right _ _)).append_left _)
      (.refl _)
    have hg : Proc.Guarded ⟨h.proc.limit, t.exec, inherited, []⟩
        [listener.passed, ready.passed] [] := by
      have hnumbers : inherited.map ListenerInfo.fd = fds.map ListenerInfo.fd := by
        rw [show inherited = _ from hinh, List.map_map]
        rfl
      show DescriptorTable.Sorts Desc.cloexec t.exec _ _
      rw [hnumbers]
      exact hpassed
    exact ⟨hg.closeFdQuiet_exposed, by rintro _ ⟨⟩, List.nil_prefix, by rintro ⟨⟩⟩
  · cases hc

/-- What has been handed out is not open in a child. -/
theorem Sound.handed_child (hs : h.Sound) (hc : h.spawnChild = some c) {fd : RawFd}
    (hfd : fd ∈ h.handed) : c.proc.table fd = none := by
  unfold Host.spawnChild at hc
  split at hc
  · rename_i fds listener ready hstage
    obtain ⟨p, hp, rfl⟩ := Option.map_eq_some_iff.mp hc
    obtain ⟨t, hpre, hp⟩ := Option.bind_eq_some_iff.mp hp
    obtain ⟨bs, -, hp⟩ := Option.bind_eq_some_iff.mp hp
    obtain ⟨inherited, -, rfl⟩ := Option.map_eq_some_iff.mp hp
    have hexec : t.exec fd = none := by
      rw [Table.exec_preExec_apply hpre, if_neg]
      · exact Table.exec_of_shielded hs.guarded
          (List.mem_append_right _ (List.mem_append_left _ hfd))
      -- the listed numbers are in use, and so not handed out
      · intro hlisted
        have hlist := hs.list
        rw [hstage] at hlist
        refine List.disjoint_of_nodup_append (List.Nodup.of_append_right hs.guarded.nodup)
          ((hlist.sublist.map ListenerInfo.fd).subset hlisted) (List.mem_append_left _ hfd)
    show t.exec.close listener.passed fd = none
    by_cases heq : fd = listener.passed
    · rw [heq, DescriptorTable.close_self]
    · rw [DescriptorTable.close_of_ne _ heq, hexec]
  · cases hc

/-- How a process of a chain starts. -/
theorem Generation.start (hg : Generation n h₀) :
    h₀.proc.usedFds = [] ∧ h₀.taken = [] ∧ h₀.ready = false ∧ h₀.stage = .idle := by
  cases hg with
  | first hinh hused => exact ⟨hused, rfl, rfl, rfl⟩
  | @next n h₁ h c _ hr hc =>
    unfold Host.spawnChild at hc
    split at hc
    · obtain ⟨p, hp, rfl⟩ := Option.map_eq_some_iff.mp hc
      exact ⟨(Proc.spawnChild_eq_some hp).2.1, rfl, rfl, rfl⟩
    · cases hc

/-- **Every process of a chain starts sound**, and so is sound throughout. -/
theorem Generation.sound (hg : Generation n h₀) : h₀.Sound := by
  induction hg with
  | first hinh hused =>
    refine ⟨?_, by rintro _ ⟨⟩, List.nil_prefix, by rintro ⟨⟩⟩
    refine ⟨?_, ?_, ?_⟩ <;> simp [init, Stage.passed, Stage.kept, hinh, hused]
  | next _ hr hc ih => exact (sound_of_reachable ih hr).spawnChild hc

end Host

/-- **The upgraded child inherits exactly what it is told about.**  In every process that
has completed `ready`, in any generation of a chain: what is registered or handed out is
open and close-on-exec, so that no other command inherits it; and a child that is
started now has, of everything the library holds or has handed out, exactly the numbers of
its list, for the same files, and the two passed pipe ends. -/
theorem child_inherits_its_list {n : ℕ} {h₀ h : Host} (hg : Host.Generation n h₀)
    (hr : (host h₀).Reachable h) (hready : h.ready = true) :
    (∀ fd ∈ h.proc.registered ++ h.handed, ∃ d, h.proc.table fd = some d ∧ d.cloexec = true) ∧
    (∀ fd ∈ h.proc.registered ++ h.handed, h.proc.table.exec fd = none) ∧
    ∀ fds listener ready, h.stage = .pipes fds listener ready →
      ∃ t, h.proc.table.preExec fds = some t ∧
        (∀ fd ∈ h.managed, (t.exec fd).isSome ↔
          fd ∈ fds.map ListenerInfo.fd ∨ fd = listener.passed ∨ fd = ready.passed) ∧
        ∀ li ∈ fds, (t.exec li.fd).map Desc.file = h.proc.fileOf li.fd := by
  have hs := Host.sound_of_reachable hg.sound hr
  obtain ⟨hinh, hnotifier⟩ := hs.settled hready
  have hreg : h.proc.registered = h.proc.usedFds.map ListenerInfo.fd := by
    rw [Proc.registered, hinh, List.nil_append]
  have hsorts := hs.guarded
  simp only [Proc.Guarded, hinh, hnotifier, List.map_nil, List.nil_append,
    Option.toList_none] at hsorts
  have hshielded : ∀ fd ∈ h.proc.registered ++ h.handed,
      fd ∈ h.proc.usedFds.map ListenerInfo.fd ++ (h.handed ++ (h.stage.kept ++ h.workers)) := by
    intro fd hfd
    rw [hreg] at hfd
    simp only [List.mem_append] at hfd ⊢
    tauto
  refine ⟨fun fd hfd => hsorts.shielded fd (hshielded fd hfd),
    fun fd hfd => Table.exec_of_shielded hsorts (hshielded fd hfd), ?_⟩
  intro fds listener ready hstage
  have hlist := hs.list_sublist
  simp only [hstage, Stage.list, Stage.passed] at hlist hsorts
  have hopen : ∀ li ∈ fds, (h.proc.table li.fd).isSome := by
    intro li hli
    obtain ⟨d, hd, -⟩ := hsorts.shielded li.fd (hlist.subset (List.mem_map_of_mem hli))
    rw [hd]
    rfl
  obtain ⟨t, hpre⟩ := Table.exists_preExec hopen
  refine ⟨t, hpre, fun fd hfd => ?_, fun li hli => ?_⟩
  · rw [Table.exec_preExec_apply hpre]
    by_cases hlisted : fd ∈ fds.map ListenerInfo.fd
    · obtain ⟨li, hli, rfl⟩ := List.mem_map.mp hlisted
      simp [hlisted, hopen li hli]
    · rw [if_neg hlisted]
      by_cases hpassed : fd = listener.passed ∨ fd = ready.passed
      · have hfd' : fd ∈ [listener.passed, ready.passed] := by simpa using hpassed
        obtain ⟨hexec, hsome⟩ := Table.exec_of_exposed hsorts hfd'
        rw [hexec]
        exact iff_of_true hsome (.inr hpassed)
      -- everything else is shielded
      · have hmem : fd ∈ h.proc.usedFds.map ListenerInfo.fd ++
            (h.handed ++ (h.stage.kept ++ h.workers)) := by
          simp only [Host.managed, Host.internal, hreg, hnotifier, hstage, Stage.passed,
            Option.toList_none, List.mem_append, List.mem_cons, List.not_mem_nil] at hfd ⊢
          tauto
        rw [hstage] at hmem
        rw [Table.exec_of_shielded hsorts hmem]
        exact iff_of_false (by simp) (not_or_intro hlisted hpassed)
  · rw [Table.exec_preExec_apply hpre, if_pos (List.mem_map_of_mem hli), Option.map_map]
    rfl

/-- The first process listens on the address and is about to start a child. -/
def firstHost : Option Host :=
  (host (.init freshProc none)).run (.init freshProc none)
    [.listen (.tcp loopback (.created 3 7 loopback)), .ready, .snapshot,
      .listenerPipes 0 (.made 5 6 20 21), .readyPipes (.made 5 8 22 23)]

/-- Its child claims the socket, calls `ready`, and is about to start a child too. -/
def secondHost (c : Host) : Option Host :=
  (host c).run c
    [.listen (.tcp loopback (.failed "address in use")), .ready, .snapshot,
      .listenerPipes 0 (.made 3 6 24 25), .readyPipes (.made 8 9 26 27)]

/-- In the second process, number 4 is the application's and number 5 is registered: the
next child has the latter and not the former. -/
theorem child_inherits_its_list_second :
    ∃ c h fds listener ready t, Host.Generation 1 c ∧ (host c).Reachable h ∧
      h.handed = [4] ∧ h.stage = .pipes fds listener ready ∧
      h.proc.table.preExec fds = some t ∧ (t.exec 4).isSome = false ∧ (t.exec 5).isSome = true := by
  have hrun : (firstHost.bind fun h => h.spawnChild.bind fun c =>
      (secondHost c).map fun h' => (h, c, h')).map (fun x =>
        x.2.2.ready && x.2.2.handed == [4] && x.2.2.stage.list.map (·.fd) == [5] &&
        x.2.2.stage.passed == [7, 10] && x.2.2.managed.contains 5) = some true := by
    decide +kernel
  obtain ⟨⟨h, c, h'⟩, hx, hcheck⟩ := Option.map_eq_some_iff.mp hrun
  obtain ⟨h₁, hh, hx⟩ := Option.bind_eq_some_iff.mp hx
  obtain ⟨c₁, hc, hx⟩ := Option.bind_eq_some_iff.mp hx
  obtain ⟨h₁', hh', hx⟩ := Option.map_eq_some_iff.mp hx
  cases hx
  simp only [Bool.and_eq_true, beq_iff_eq, List.contains_iff_mem] at hcheck
  obtain ⟨⟨⟨⟨hready, hhanded⟩, hlist⟩, hpassed⟩, hfive⟩ := hcheck
  have hg : Host.Generation 1 c :=
    .next (.first rfl rfl) (TransitionSystem.reachable_of_run (.init rfl) hh) hc
  have hr := TransitionSystem.reachable_of_run (M := host c) (.init rfl) hh'
  cases hstage : h'.stage with
  | idle => simp [hstage, Stage.passed] at hpassed
  | half fds listener => simp [hstage, Stage.passed] at hpassed
  | pipes fds listener ready =>
    rw [hstage] at hlist hpassed
    obtain ⟨t, hpre, hiff, -⟩ :=
      (child_inherits_its_list hg hr hready).2.2 fds listener ready hstage
    simp only [Stage.list] at hlist
    simp only [Stage.passed, List.cons.injEq, and_true] at hpassed
    have hfour : (4 : RawFd) ∈ h'.managed := by simp [Host.managed, hhanded]
    refine ⟨c, h', fds, listener, ready, t, hg, hr, hhanded, hstage, hpre, ?_, ?_⟩
    · rw [Bool.eq_false_iff]
      intro hopen
      have hor := (hiff 4 hfour).mp hopen
      rw [hlist, hpassed.1, hpassed.2] at hor
      revert hor
      decide
    · exact (hiff 5 hfive).mpr (.inl (by rw [hlist]; decide))
