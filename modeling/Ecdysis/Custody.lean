/-
# Who owns a descriptor

Descriptor numbers are plain integers that the operating system reuses, and the registry
closes numbers it finds in its lists.  `Custody` is a process whose open numbers have
titles (`Ownership`): the registry owns the numbers in its two lists, the application
those it has opened itself or been handed, and a number that `inherit` has taken but
could not duplicate belongs to nobody.  Every close is recorded with the title that was
closed and with who closed it.

The operations are those of `Registry`, with one refinement: `close_used` and
`close_inherited` are loops, which hold the lock of their list from the beginning to the end.
They close the numbers of the list one after another and clear the list when they are done;
the application may open and close numbers in between, and so a number that the list still
shows may have been closed already, and given to the application.  `Custody.live` is the
registry without the entries of which that is so.  `Drop` is one loop and then the other.
Duplication can fail at any time: the limit of the process is not fixed.

* `Custody.sound_of_reachable` : the registry owns what it holds.
* `registry_closes_its_own` : so its numbers are distinct, open and not the application's,
  apart from those that a loop under way has closed, and it closes nothing else, and nothing
  twice.
-/
import Ecdysis.Ownership
import Ecdysis.RegistryLedger
import Ecdysis.TransitionSystem

/-- Whose an open number is. -/
inductive Keeper
  | registry
  | application
  | nobody
  deriving DecidableEq

/-- The list that a loop goes through. -/
inductive Which
  | used
  | inherited
  deriving DecidableEq

/-- A process with titles to its open numbers, the loop under way, if any, with the entries
it has still to close, and whether the registry is dropped. -/
structure Custody where
  proc : Proc
  titles : Titles RawFd Keeper
  closing : Option (Which × List ListenerInfo)
  dropped : Bool

namespace Custody

/-- At the start the registry owns its entries, the application all other open numbers. -/
def init (p : Proc) : Custody where
  proc := p
  titles :=
    { title := fun fd => (p.table fd).map fun _ =>
        ⟨if fd ∈ p.registered then .registry else .application, fd.toBitVec.toNat⟩
      issued := 2 ^ 32
      releases := [] }
  closing := none
  dropped := false

/-- The process, without the entries that a loop under way has closed. -/
def live (s : Custody) : Proc :=
  match s.closing with
  | none => s.proc
  | some (.used, rest) => { s.proc with usedFds := rest }
  | some (.inherited, rest) => { s.proc with inheritedFds := rest }

/-- The numbers the registry holds. -/
def held (s : Custody) : List RawFd := s.live.registered

/-- The lock of the list of inherited entries is free. -/
def canTake (s : Custody) : Bool :=
  match s.closing with
  | some (.inherited, _) => false
  | _ => !s.dropped

/-- Both locks are free. -/
def idle (s : Custody) : Bool := s.closing.isNone && !s.dropped

/-- The registry has duplicated a number: the duplicate is the last entry in use. -/
def register (s : Custody) (q : Proc) : Custody :=
  match q.usedFds.getLast? with
  | some li => { s with proc := q, titles := s.titles.issue li.fd .registry }
  | none => { s with proc := q }

/-- The registry gives up a number to `o`. -/
def handOver (s : Custody) (fd : RawFd) (o : Keeper) : Custody :=
  { s with titles := s.titles.transfer fd o }

/-- What can happen.  `closeNext` and `clear` are the progress of a loop.  The system may
change the limit, and with it which duplications fail; the last two are the application. -/
inductive Event
  | add (item : ListenerInfo)
  | take (k : SockInfo)
  | inherit (k : SockInfo)
  | closeInherited
  | closeUsed
  | drop
  | closeNext
  | clear
  | setLimit (limit : ℕ)
  | openFd (fd : RawFd) (d : Desc)
  | closeFd (fd : RawFd)

/-- One step.  The application gets numbers that are free, and closes only its own. -/
def step (s : Custody) : Event → Option Custody
  | .add item =>
    if s.idle then
      match s.proc.add item with
      | .ok q => some (s.register q)
      | .error _ => some s
    else none
  -- another thread may do so while `close_used` holds the lock of the other list
  | .take k =>
    if s.canTake then
      match s.proc.take k with
      | none => none
      | some (none, q) => some { s with proc := q }
      | some (some fd, q) => some ({ s with proc := q }.handOver fd .application)
    else none
  | .inherit k =>
    if s.idle then
      match s.proc.take k, s.proc.inherit k with
      | some (some fd, _), some (some _, q) => some ((s.handOver fd .application).register q)
      -- taken, but not duplicated
      | some (some fd, _), some (none, q) => some ({ s with proc := q }.handOver fd .nobody)
      | some (none, _), some (_, q) => some { s with proc := q }
      | _, _ => none
    else none
  | .closeInherited =>
    if s.idle then some { s with closing := some (.inherited, s.proc.inheritedFds) } else none
  | .closeUsed => if s.idle then some { s with closing := some (.used, s.proc.usedFds) } else none
  -- `Drop`: the entries in use, then the unclaimed ones
  | .drop =>
    if s.idle then some { s with closing := some (.used, s.proc.usedFds), dropped := true }
    else none
  | .closeNext =>
    match s.closing with
    | some (which, li :: rest) =>
      some { s with
        proc := s.proc.closeFdQuiet li.fd
        titles := s.titles.release li.fd .registry
        closing := some (which, rest) }
    | _ => none
  | .clear =>
    match s.closing with
    | some (.used, []) =>
      some { s with
        proc := { s.proc with usedFds := [] }
        closing := if s.dropped then some (.inherited, s.proc.inheritedFds) else none }
    | some (.inherited, []) =>
      some { s with proc := { s.proc with inheritedFds := [] }, closing := none }
    | _ => none
  | .setLimit limit => some { s with proc := { s.proc with limit := limit } }
  | .openFd fd d =>
    if s.proc.table fd = none then
      some { s with proc := s.proc.openFd fd d, titles := s.titles.issue fd .application }
    else none
  | .closeFd fd =>
    if s.titles.owner fd = some .application then
      some { s with
        proc := s.proc.closeFdQuiet fd
        titles := s.titles.release fd .application }
    else none

end Custody

/-- All sequences of operations, from a registry whose inherited entries are distinct open
descriptors. -/
def custody : TransitionSystem Custody Custody.Event where
  Init := fun s => ∃ p : Proc, p.WF ∧ p.usedFds = [] ∧ s = Custody.init p
  step := Custody.step

/-! ## Which numbers are open -/

namespace Proc

variable {p q : Proc} {fd : RawFd}

/-- What is open after a number has been opened. -/
theorem isSome_openFd (p : Proc) (fd : RawFd) (d : Desc) (fd' : RawFd) :
    ((p.openFd fd d).table fd').isSome = (decide (fd' = fd) || (p.table fd').isSome) := by
  by_cases h : fd' = fd
  · subst h
    simp [openFd]
  · simp [openFd, h]

/-- What `take` finds was the registry's, and `take` closes and opens nothing. -/
theorem take_found {k : SockInfo} (h : p.take k = some (some fd, q)) :
    fd ∈ p.registered ∧ ∀ fd', (q.table fd').isSome = (p.table fd').isSome := by
  refine ⟨mem_registered_of_take h, fun fd' => ?_⟩
  rcases take_eq_some h with ⟨-, hnone, -⟩ | ⟨li, d, -, -, hd, rfl⟩
  · cases hnone
  · refine (isSome_openFd p li.fd { d with cloexec := true } fd').trans ?_
    by_cases hfd : fd' = li.fd
    · subst hfd
      simp [hd]
    · simp [hfd]

/-- What `add` appends was free before, and is what `add` opens. -/
theorem add_added {item : ListenerInfo} (h : p.add item = .ok q) :
    ∃ n, p.table n = none ∧ q.inheritedFds = p.inheritedFds ∧
      q.usedFds = p.usedFds ++ [⟨n, item.sockInfo⟩] ∧
      ∀ fd', (q.table fd').isSome = (decide (fd' = n) || (p.table fd').isSome) := by
  obtain ⟨n, d, -, -, -, hfree, rfl⟩ := add_eq_ok h
  exact ⟨n, hfree, rfl, rfl, isSome_openFd p n { d with cloexec := true }⟩

/-- `take` does not look at the entries in use. -/
theorem take_usedFds {k : SockInfo} {r : Option RawFd} (h : p.take k = some (r, q))
    (l : List ListenerInfo) :
    { p with usedFds := l }.take k = some (r, { q with usedFds := l }) := by
  unfold take at h ⊢
  split at h
  · rename_i li hli
    obtain ⟨q', hset, heq⟩ := Option.map_eq_some_iff.mp h
    obtain ⟨d, hd, rfl⟩ := Option.map_eq_some_iff.mp hset
    cases heq
    simp only [hli]
    refine Option.map_eq_some_iff.mpr ⟨_, Option.map_eq_some_iff.mpr ⟨d, hd, rfl⟩, rfl⟩
  · rename_i hnone
    cases h
    simp only [hnone]

end Proc

namespace Custody

variable {s s' : Custody} {fd : RawFd}

/-! ## The registry without what has been closed -/

@[simp] theorem table_live : s.live.table = s.proc.table := by
  unfold live
  split <;> rfl

theorem live_of_idle (h : s.idle = true) : s.live = s.proc := by
  simp only [idle, Bool.and_eq_true, Option.isNone_iff_eq_none] at h
  rw [live, h.1]

/-- The two agree on what `take` does. -/
theorem live_take {k : SockInfo} {r : Option RawFd} {q : Proc} (hlock : s.canTake = true)
    (h : s.proc.take k = some (r, q)) : s.live.take k = some (r, live { s with proc := q }) := by
  cases hclosing : s.closing with
  | none => simpa only [live, hclosing] using h
  | some c =>
    obtain ⟨which, rest⟩ := c
    cases which with
    | used => simpa only [live, hclosing] using Proc.take_usedFds h rest
    | inherited => simp [canTake, hclosing] at hlock

/-- What the registry holds depends on its lists and on the loop. -/
theorem held_congr {p : Proc} {T : Titles RawFd Keeper}
    (hinh : p.inheritedFds = s.proc.inheritedFds) (hused : p.usedFds = s.proc.usedFds) :
    held { s with proc := p, titles := T } = s.held := by
  unfold held live Proc.registered
  rcases s.closing with _ | ⟨_ | _, rest⟩ <;> simp [hinh, hused]

/-! ## The registry owns what it holds -/

/-- Titles are in order, the registry owns what it holds, each number once, and exactly the
open numbers have titles. -/
structure Sound (s : Custody) : Prop where
  titles : s.titles.Valid
  nodup : s.held.Nodup
  owned : ∀ fd ∈ s.held, s.titles.owner fd = some .registry
  isOpen : ∀ fd, (s.titles.title fd).isSome = (s.proc.table fd).isSome

theorem sound_init {p : Proc} (hp : p.WF) : (init p).Sound := by
  have htitle : ∀ fd t, (init p).titles.title fd = some t → t.serial = fd.toBitVec.toNat := by
    intro fd t ht
    obtain ⟨d, -, rfl⟩ := Option.map_eq_some_iff.mp ht
    rfl
  refine ⟨⟨?_, ?_, ?_, ?_, ?_, ?_⟩, ?_, ?_, ?_⟩
  · intro fd t ht
    rw [htitle fd t ht]
    exact fd.toBitVec.isLt
  · intro fd fd' t u ht hu heq
    rw [htitle fd t ht, htitle fd' u hu] at heq
    exact Int32.toBitVec_inj.mp (BitVec.eq_of_toNat_eq heq)
  · simp [init]
  · simp [init, Titles.spent]
  · simp [init, Titles.spent]
  · simp [init, Titles.spent]
  · exact hp.nodup
  · intro fd hfd
    have hmem : fd ∈ p.registered := hfd
    obtain ⟨d, hd⟩ := Option.isSome_iff_exists.mp (hp.isOpen fd hmem)
    simp [Titles.owner, init, hd, hmem]
  · intro fd
    simp [init]

/-- What the registry holds is open. -/
theorem Sound.isOpen_of_held (hs : s.Sound) (h : fd ∈ s.held) : (s.proc.table fd).isSome := by
  rw [← hs.isOpen fd]
  have howned := hs.owned fd h
  unfold Titles.owner at howned
  cases htitle : s.titles.title fd with
  | none => simp [htitle] at howned
  | some t => rfl

/-- The registry as such is well-formed, without what has been closed. -/
theorem Sound.wf (hs : s.Sound) : s.live.WF :=
  ⟨hs.nodup, fun _ hfd => by
    rw [table_live]
    exact hs.isOpen_of_held hfd⟩

/-- The registry gives something up, or sorts what it holds, and the titles follow. -/
theorem Sound.shrink (hs : s.Sound) (hvalid : s'.titles.Valid) (hheld : s'.held.Subperm s.held)
    (howner : ∀ fd ∈ s'.held, s'.titles.owner fd = s.titles.owner fd)
    (hopen : ∀ fd, (s'.titles.title fd).isSome = (s'.proc.table fd).isSome) : s'.Sound := by
  refine ⟨hvalid, ?_, fun fd hfd => ?_, hopen⟩
  · obtain ⟨l, hperm, hsub⟩ := hheld
    exact hperm.nodup_iff.mp (hs.nodup.sublist hsub)
  · rw [howner fd hfd]
    exact hs.owned fd (hheld.subset hfd)

/-- A loop begins or ends. -/
theorem Sound.rearrange (hs : s.Sound) (hheld : s'.held = s.held)
    (htitles : s'.titles = s.titles) (htable : s'.proc.table = s.proc.table) : s'.Sound := by
  refine hs.shrink (htitles ▸ hs.titles) (hheld ▸ List.Subperm.refl _)
    (fun fd _ => by rw [htitles]) fun fd => ?_
  rw [htitles, htable]
  exact hs.isOpen fd

theorem isSome_release {T : Titles RawFd Keeper} {p : Proc}
    (h : ∀ fd, (T.title fd).isSome = (p.table fd).isSome) (fd : RawFd) (o : Keeper) (fd' : RawFd) :
    ((T.release fd o).title fd').isSome = ((p.closeFdQuiet fd).table fd').isSome := by
  by_cases heq : fd' = fd
  · subst heq
    simp [Titles.release, Proc.closeFdQuiet]
  · simpa [Titles.release, Proc.closeFdQuiet, heq] using h fd'

theorem isSome_issue (T : Titles RawFd Keeper) (fd' : RawFd) (o : Keeper) :
    ((T.issue fd o).title fd').isSome = (decide (fd' = fd) || (T.title fd').isSome) := by
  by_cases h : fd' = fd
  · subst h
    simp [Titles.issue]
  · simp [Titles.issue, h]

theorem isSome_transfer (T : Titles RawFd Keeper) (fd' : RawFd) (o : Keeper) :
    ((T.transfer fd o).title fd').isSome = (T.title fd').isSome := by
  by_cases h : fd' = fd
  · subst h
    simp [Titles.transfer]
  · simp [Titles.transfer, h]

/-- **Step lemma**: what `take` returns changes hands. -/
theorem Sound.take (hs : s.Sound) {k : SockInfo} {q : Proc} (o : Keeper)
    (hlock : s.canTake = true) (h : s.proc.take k = some (some fd, q)) :
    ({ s with proc := q }.handOver fd o).Sound := by
  have hlive := live_take hlock h
  obtain ⟨-, hsub, hleft⟩ := hs.wf.take hlive
  obtain ⟨-, hopen⟩ := Proc.take_found h
  refine hs.shrink (hs.titles.transfer fd o) hsub.subperm ?_ ?_
  · intro fd' hmem
    refine Titles.owner_transfer_of_ne ?_
    rintro rfl
    exact (hleft fd' rfl).1 hmem
  · intro fd'
    show ((s.titles.transfer fd o).title fd').isSome = (q.table fd').isSome
    rw [isSome_transfer, hopen fd']
    exact hs.isOpen fd'

/-- **Step lemma**: what `add` has duplicated is the registry's. -/
theorem Sound.add (hs : s.Sound) (hidle : s.closing = none) {item : ListenerInfo} {q : Proc}
    (h : s.proc.add item = .ok q) : (s.register q).Sound := by
  obtain ⟨n, hfree, hinh, hused, hopen⟩ := Proc.add_added h
  have hreg : s.register q = { s with proc := q, titles := s.titles.issue n .registry } := by
    simp [register, hused]
  have hheld : (s.register q).held = s.held ++ [n] := by
    simp [hreg, held, live, hidle, Proc.registered, hinh, hused]
  have hn : n ∉ s.held := by
    intro hmem
    have hopen := hs.isOpen_of_held hmem
    rw [hfree] at hopen
    cases hopen
  refine ⟨?_, ?_, ?_, ?_⟩
  · rw [hreg]
    exact hs.titles.issue n .registry
  · rw [hheld]
    exact (List.nodup_cons.mpr ⟨hn, hs.nodup⟩).perm (List.perm_append_singleton n s.held).symm
  · intro fd hfd
    rw [hheld, List.mem_append, List.mem_singleton] at hfd
    rw [hreg]
    rcases hfd with hold | rfl
    · refine (Titles.owner_issue_of_ne ?_).trans (hs.owned fd hold)
      rintro rfl
      exact hn hold
    · exact Titles.owner_issue_self
  · intro fd
    rw [hreg]
    show ((s.titles.issue n .registry).title fd).isSome = (q.table fd).isSome
    rw [isSome_issue, hopen fd, hs.isOpen fd]

/-- **Step lemma**: a loop closes the next number. -/
theorem Sound.closeNext (hs : s.Sound) {which : Which} {li : ListenerInfo}
    {rest : List ListenerInfo} (h : s.closing = some (which, li :: rest)) :
    Sound { s with
      proc := s.proc.closeFdQuiet li.fd
      titles := s.titles.release li.fd .registry
      closing := some (which, rest) } := by
  set s' : Custody := { s with
    proc := s.proc.closeFdQuiet li.fd
    titles := s.titles.release li.fd .registry
    closing := some (which, rest) } with hs'
  have hheld : s.held.Perm (li.fd :: s'.held) := by
    cases which with
    | used =>
      simp only [held, live, h, hs', Proc.registered, Proc.closeFdQuiet, List.map_append,
        List.map_cons]
      exact List.perm_middle
    | inherited =>
      simp only [held, live, h, hs', Proc.registered, Proc.closeFdQuiet, List.map_append,
        List.map_cons, List.cons_append]
      exact List.Perm.refl _
  have hmem : li.fd ∈ s.held := hheld.mem_iff.mpr List.mem_cons_self
  have hnot : li.fd ∉ s'.held := (List.nodup_cons.mp (hheld.nodup_iff.mp hs.nodup)).1
  refine hs.shrink (hs.titles.release (hs.owned li.fd hmem)) ?_ ?_ ?_
  · exact (List.sublist_cons_self _ _).subperm.trans hheld.symm.subperm
  · intro fd' hfd'
    refine Titles.owner_release_of_ne ?_
    rintro rfl
    exact hnot hfd'
  · exact isSome_release hs.isOpen li.fd .registry

/-- **Step lemma**: a loop is done and clears its list; in `Drop` the second one follows. -/
theorem Sound.clear (hs : s.Sound) (h : s.step .clear = some s') : s'.Sound := by
  simp only [Custody.step] at h
  split at h <;> cases h
  · rename_i hclosing
    refine hs.rearrange ?_ rfl rfl
    cases hdropped : s.dropped <;> simp [held, live, hclosing, Proc.registered]
  · rename_i hclosing
    refine hs.rearrange ?_ rfl rfl
    simp [held, live, hclosing, Proc.registered]

/-- **Step lemma**: the application opens a number that is free. -/
theorem Sound.openFd (hs : s.Sound) (hfree : s.proc.table fd = none) (d : Desc) :
    Sound { s with proc := s.proc.openFd fd d, titles := s.titles.issue fd .application } := by
  have hheld : held { s with
      proc := s.proc.openFd fd d, titles := s.titles.issue fd .application } = s.held :=
    held_congr rfl rfl
  refine hs.shrink (hs.titles.issue fd .application) (hheld ▸ List.Subperm.refl _) ?_ ?_
  · intro fd' hfd'
    rw [hheld] at hfd'
    refine Titles.owner_issue_of_ne ?_
    rintro rfl
    have hopen := hs.isOpen_of_held hfd'
    rw [hfree] at hopen
    cases hopen
  · intro fd'
    show ((s.titles.issue fd .application).title fd').isSome
      = ((s.proc.openFd fd d).table fd').isSome
    rw [isSome_issue, Proc.isSome_openFd, hs.isOpen fd']

/-- **Step lemma**: the application closes a number of its own. -/
theorem Sound.closeFd (hs : s.Sound) (howner : s.titles.owner fd = some .application) :
    Sound { s with
      proc := s.proc.closeFdQuiet fd, titles := s.titles.release fd .application } := by
  have hheld : held { s with
      proc := s.proc.closeFdQuiet fd, titles := s.titles.release fd .application } = s.held :=
    held_congr rfl rfl
  refine hs.shrink (hs.titles.release howner) (hheld ▸ List.Subperm.refl _) ?_ ?_
  · intro fd' hfd'
    rw [hheld] at hfd'
    refine Titles.owner_release_of_ne ?_
    rintro rfl
    cases (hs.owned fd' hfd').symm.trans howner
  · exact isSome_release hs.isOpen fd .application

/-- The process before the duplication does not matter for what becomes of the duplicate. -/
theorem register_proc (p q : Proc) : register { s with proc := p } q = s.register q := by
  unfold register
  split <;> rfl

theorem closing_of_idle (h : s.idle = true) : s.closing = none ∧ s.dropped = false := by
  simpa [idle] using h

theorem canTake_of_idle (h : s.idle = true) : s.canTake = true := by
  obtain ⟨hclosing, hdropped⟩ := closing_of_idle h
  simp [canTake, hclosing, hdropped]

/-- **Step lemma**: `inherit` takes and adds; if it cannot add, nobody has what it took. -/
theorem Sound.inherit (hs : s.Sound) {k : SockInfo} (h : s.step (.inherit k) = some s') :
    s'.Sound := by
  simp only [Custody.step] at h
  split at h
  · rename_i hidle
    have hlock := canTake_of_idle hidle
    have hclosing := (closing_of_idle hidle).1
    split at h
    · rename_i fd q₀ fd' q htake hinh
      cases h
      rcases Proc.inherit_eq_some hinh with ⟨hnone, -⟩ | ⟨fd'', q', htake', hadd, -⟩ |
        ⟨_, _, -, -, hnone⟩
      · cases hnone
      · cases htake.symm.trans htake'
        have hadded := (hs.take .application hlock htake).add hclosing hadd
        have heq : ({ s with proc := q₀ }.handOver fd .application).register q
            = (s.handOver fd .application).register q :=
          register_proc (s := s.handOver fd .application) q₀ q
        exact heq ▸ hadded
      · cases hnone
    · rename_i fd q₀ q htake hinh
      cases h
      rcases Proc.inherit_eq_some hinh with ⟨-, -, htake'⟩ | ⟨_, _, -, -, hsome⟩ |
        ⟨fd'', e, htake', -, -⟩
      · cases htake.symm.trans htake'
      · cases hsome
      · cases htake.symm.trans htake'
        exact hs.take .nobody hlock htake
    · rename_i q₀ r q htake hinh
      cases h
      rcases Proc.inherit_eq_some hinh with ⟨-, rfl, -⟩ | ⟨fd'', q', htake', -, -⟩ |
        ⟨fd'', e, htake', -, -⟩
      · exact hs
      · cases htake.symm.trans htake'
      · cases htake.symm.trans htake'
    · cases h
  · cases h

/-- **Step lemma**: every operation leaves the registry with numbers of its own only. -/
theorem Sound.step {e : Event} (hs : s.Sound) (h : s.step e = some s') : s'.Sound := by
  cases e with
  | inherit k => exact hs.inherit h
  | clear => exact hs.clear h
  | add item =>
    simp only [Custody.step] at h
    split at h
    · rename_i hidle
      split at h <;> cases h
      · rename_i q hadd
        exact hs.add (closing_of_idle hidle).1 hadd
      · exact hs
    · cases h
  | take k =>
    simp only [Custody.step] at h
    split at h
    · rename_i hlock
      split at h
      · cases h
      · rename_i q htake
        cases h
        rcases Proc.take_eq_some htake with ⟨-, -, rfl⟩ | ⟨li, d, -, hsome, -⟩
        · exact hs
        · cases hsome
      · rename_i fd q htake
        cases h
        exact hs.take .application hlock htake
    · cases h
  | closeInherited | closeUsed | drop =>
    simp only [Custody.step] at h
    split at h <;> cases h
    rename_i hidle
    refine hs.rearrange ?_ rfl rfl
    rw [held, held, live_of_idle hidle]
    rfl
  | closeNext =>
    simp only [Custody.step] at h
    split at h <;> cases h
    rename_i hclosing
    exact hs.closeNext hclosing
  | setLimit limit =>
    cases h
    exact hs.rearrange (held_congr (T := s.titles) rfl rfl) rfl rfl
  | openFd fd d =>
    simp only [Custody.step] at h
    split at h <;> cases h
    rename_i hfree
    exact hs.openFd hfree d
  | closeFd fd =>
    simp only [Custody.step] at h
    split at h <;> cases h
    rename_i howner
    exact hs.closeFd howner

/-- **The registry owns what it holds**, in every state reached. -/
theorem sound_of_reachable (hr : custody.Reachable s) : s.Sound := by
  refine hr.invariant ?_ fun s e s' _ hs h => hs.step h
  rintro s ⟨p, hp, -, rfl⟩
  exact sound_init hp

/-! ## The loops are the operations of the registry -/

/-- Closing what is to be closed, one number after another. -/
theorem run_closeNext (which : Which) (l : List ListenerInfo) (h : s.closing = some (which, l)) :
    ∃ T, custody.run s (List.replicate l.length .closeNext) =
      some ⟨{ s.proc with table := s.proc.table.closeAll (l.map ListenerInfo.fd) }, T,
        some (which, []), s.dropped⟩ := by
  induction l generalizing s with
  | nil =>
    refine ⟨s.titles, ?_⟩
    show some s = _
    obtain ⟨p, T, closing, dropped⟩ := s
    simp_all [DescriptorTable.closeAll]
  | cons li l ih =>
    have hstep : custody.step s .closeNext = some ⟨s.proc.closeFdQuiet li.fd,
        s.titles.release li.fd .registry, some (which, l), s.dropped⟩ := by
      show s.step .closeNext = _
      simp [Custody.step, h]
    obtain ⟨T, hT⟩ := ih (s := ⟨s.proc.closeFdQuiet li.fd, s.titles.release li.fd .registry,
      some (which, l), s.dropped⟩) rfl
    refine ⟨T, ?_⟩
    rw [List.length_cons, List.replicate_succ, TransitionSystem.run_cons, hstep]
    exact hT

/-- **Undisturbed, the loops do what the registry's operations do**: `close_used` and
`close_inherited`. -/
theorem run_close_loop (hidle : s.idle = true) :
    (∃ T, custody.run s
        (.closeUsed :: (List.replicate s.proc.usedFds.length .closeNext ++ [.clear]))
      = some ⟨s.proc.closeUsed, T, none, false⟩) ∧
    (∃ T, custody.run s
        (.closeInherited :: (List.replicate s.proc.inheritedFds.length .closeNext ++ [.clear]))
      = some ⟨s.proc.closeInherited, T, none, false⟩) := by
  obtain ⟨-, hdropped⟩ := closing_of_idle hidle
  constructor
  · have hstep : custody.step s .closeUsed = some ⟨s.proc, s.titles,
        some (.used, s.proc.usedFds), false⟩ := by
      show s.step .closeUsed = _
      simp [Custody.step, hidle, hdropped]
    obtain ⟨T, hT⟩ := run_closeNext (s := ⟨s.proc, s.titles, some (.used, s.proc.usedFds),
      false⟩) .used _ rfl
    refine ⟨T, ?_⟩
    rw [TransitionSystem.run_cons, hstep, Option.bind_some, TransitionSystem.run_append, hT,
      Option.bind_some, TransitionSystem.run_singleton]
    rfl
  · have hstep : custody.step s .closeInherited = some ⟨s.proc, s.titles,
        some (.inherited, s.proc.inheritedFds), false⟩ := by
      show s.step .closeInherited = _
      simp [Custody.step, hidle, hdropped]
    obtain ⟨T, hT⟩ := run_closeNext (s := ⟨s.proc, s.titles,
      some (.inherited, s.proc.inheritedFds), false⟩) .inherited _ rfl
    refine ⟨T, ?_⟩
    rw [TransitionSystem.run_cons, hstep, Option.bind_some, TransitionSystem.run_append, hT,
      Option.bind_some, TransitionSystem.run_singleton]
    rfl

end Custody

/-! ## The registry closes its own -/

/-- The numbers are distinct, open, and none of the application's. -/
structure Custody.Secure (s : Custody) (fds : List RawFd) : Prop where
  nodup : fds.Nodup
  isOpen : ∀ fd ∈ fds, (s.proc.table fd).isSome = true
  apart : ∀ fd, s.titles.owner fd = some .application → fd ∉ fds

/-- What the registry holds is secure at any time. -/
theorem Custody.Sound.secure {s : Custody} (hs : s.Sound) : s.Secure s.held where
  nodup := hs.wf.nodup
  isOpen := by
    intro fd hfd
    rw [← table_live]
    exact hs.wf.isOpen fd hfd
  apart := by
    intro fd howner hmem
    cases howner.symm.trans (hs.owned fd hmem)

/-- **Descriptor ownership in the registry.**  After any sequence of operations, with any
duplications failing, whatever the application opens and closes meanwhile: the numbers in the
two lists of the registry are pairwise distinct, open and none of the application's, unless a
loop is under way, which has closed numbers that its list still shows; then this is so of the
numbers that it has still to close and those of the other list; at any time, every close the
registry has made was of a number that was the registry's at that moment; and nothing, by
whomever, has been closed twice. -/
theorem registry_closes_its_own {s : Custody} (hr : custody.Reachable s) :
    (s.closing = none → s.Secure s.proc.registered) ∧ s.Secure s.held ∧
    (∀ r ∈ s.titles.releases, r.actor = .registry →
      r.title.map Title.owner = some .registry) ∧
    s.titles.spent.Nodup := by
  have hs := Custody.sound_of_reachable hr
  refine ⟨fun hclosing => ?_, hs.secure, ?_, hs.titles.nodup⟩
  · have hheld : s.held = s.proc.registered := by rw [Custody.held, Custody.live, hclosing]
    exact hheld ▸ hs.secure
  · intro r hr hactor
    rw [hs.titles.rightful r hr, hactor]

/-- A process with two sockets inherited under the numbers 5 and 6. -/
def inheritingProc : Proc where
  limit := 16
  table := fun fd => if fd = 5 ∨ fd = 6 then some ⟨fd.toBitVec.toNat, false⟩ else none
  inheritedFds := [⟨5, .tcp (localhost 8080)⟩, ⟨6, .udp (localhost 8080)⟩]
  usedFds := []

theorem wf_inheritingProc : inheritingProc.WF := by
  constructor <;> simp [Proc.registered, inheritingProc]

/-- The socket under 6 is taken but cannot be duplicated; `ready` closes 5, which the
application gets for a file of its own before the list is cleared; then the registry is
dropped. -/
def reusedNumber : List Custody.Event :=
  [.setLimit 0, .inherit (.udp (localhost 8080)), .closeInherited, .closeNext,
    .openFd 5 ⟨99, true⟩, .clear, .closeUsed, .clear, .drop, .clear, .clear]

theorem registry_closes_its_own_reused :
    ∃ s, custody.Reachable s ∧ s.titles.owner 5 = some .application ∧
      s.titles.releases.length = 1 ∧ 5 ∉ s.proc.registered ∧
      (∀ r ∈ s.titles.releases, r.actor = .registry →
        r.title.map Title.owner = some .registry) ∧
      s.titles.spent.Nodup := by
  obtain ⟨s, hrun, hp⟩ := TransitionSystem.exists_run custody (Custody.init inheritingProc)
    reusedNumber
    (fun s => s.titles.owner 5 = some .application ∧ s.titles.releases.length = 1 ∧
      s.closing = none)
    (by decide +kernel)
  obtain ⟨howner, hlength, hclosing⟩ := of_decide_eq_true hp
  have hr : custody.Reachable s :=
    TransitionSystem.reachable_of_run (.init ⟨_, wf_inheritingProc, rfl, rfl⟩) hrun
  obtain ⟨hlists, -, hown, htwice⟩ := registry_closes_its_own hr
  exact ⟨s, hr, howner, hlength, (hlists hclosing).apart 5 howner, hown, htwice⟩
