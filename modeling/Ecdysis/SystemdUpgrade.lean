/-
# systemd's sockets after an upgrade

In the first process a `systemd_*` method finds a socket by its name, in an upgraded child by
its address: the child has no names.  The two agree as long as the sockets that the first
process has registered have different addresses, and these survive the encoding.

Both processes are those of `SystemdSockets`.  The first process makes calls in any order,
no two for the same number; its record holds the calls that found a number, with the files
they returned.  The child starts with what the first process has registered and makes the
successful calls again, each at most once, in any order; its record holds the names it has
asked for.

* `Systemd.Tidy` : the listeners, the application's numbers and the registry's are different
  and open.
* `systemd_child_agrees` : a call of the child returns the socket that the call for the same
  name returned in the first process, or fails.
* `same_address_exchanged` : two sockets with the same address may change places.
-/
import Ecdysis.Generations
import Ecdysis.SystemdSockets

open FirstMatch

/-! ## Numbers outside the registry -/

namespace Proc

variable {p q : Proc} {fd fd' : RawFd} {k : SockInfo} {item : ListenerInfo} {d : Desc}

/-- A number that is open and not the registry's. -/
structure Apart (p : Proc) (fd : RawFd) : Prop where
  outside : fd ∉ p.registered
  isOpen : (p.fileOf fd).isSome

/-- Different numbers that are open and not the registry's. -/
structure Owns (p : Proc) (fds : List RawFd) : Prop where
  nodup : fds.Nodup
  apart : ∀ fd ∈ fds, p.Apart fd

theorem Apart.table (h : p.Apart fd) : (p.table fd).isSome := by
  simpa [fileOf] using h.isOpen

theorem Apart.ne_of_free (h : p.Apart fd) (hfree : p.table fd' = none) : fd ≠ fd' := by
  rintro rfl
  simpa [hfree] using h.table

/-- A change that keeps the two lists and the file. -/
theorem Apart.congr (h : p.Apart fd) (hinh : q.inheritedFds = p.inheritedFds)
    (hused : q.usedFds = p.usedFds) (hfile : q.fileOf fd = p.fileOf fd) : q.Apart fd := by
  refine ⟨?_, hfile ▸ h.isOpen⟩
  rw [registered, hinh, hused]
  exact h.outside

theorem Apart.openFd (h : p.Apart fd) (hfree : p.table fd' = none) : (p.openFd fd' d).Apart fd :=
  h.congr rfl rfl (fileOf_openFd_of_ne (h.ne_of_free hfree))

theorem Apart.closeFdQuiet (h : p.Apart fd) (hne : fd ≠ fd') : (p.closeFdQuiet fd').Apart fd :=
  h.congr rfl rfl (fileOf_closeFdQuiet_of_ne hne)

/-- Registering a number does not get in the way of another. -/
theorem Apart.add (h : p.Apart fd) (hp : p.WF) (hadd : p.add item = .ok q) :
    q.Apart fd ∧ q.fileOf fd = p.fileOf fd := by
  have hfile := (ledger_add hp hadd).2 fd h.table
  exact ⟨⟨(hp.add hadd).2 fd h.outside h.table, hfile ▸ h.isOpen⟩, hfile⟩

/-- Nor does claiming an entry, and what is claimed is another number. -/
theorem Apart.inherit (h : p.Apart fd) (hp : p.WF) {r : Option RawFd}
    (hinh : p.inherit k = some (r, q)) : q.Apart fd ∧ r ≠ some fd := by
  have htaken : ∀ {r q}, p.take k = some (r, q) → q.Apart fd ∧ r ≠ some fd := by
    intro r q htake
    refine ⟨⟨fun hmem => h.outside ((hp.take htake).2.1.subset hmem), ?_⟩, ?_⟩
    · rcases take_eq_some htake with ⟨_, _, rfl⟩ | ⟨li, d, _, _, hd, rfl⟩
      · exact h.isOpen
      · exact (fileOf_setFlag hd true fd).symm ▸ h.isOpen
    · rintro rfl
      exact h.outside (mem_registered_of_take htake)
  rcases inherit_eq_some hinh with
    ⟨rfl, rfl, _⟩ | ⟨fd', q', htake, hadd, rfl⟩ | ⟨_, _, htake, _, rfl⟩
  · exact ⟨h, by rintro ⟨⟩⟩
  · obtain ⟨hq', hne⟩ := htaken htake
    exact ⟨(hq'.add (hp.take htake).1 hadd).1, hne⟩
  · exact ⟨(htaken htake).1, by rintro ⟨⟩⟩

/-- What is claimed is open and no longer the registry's. -/
theorem WF.apart_inherit (hp : p.WF) (hinh : p.inherit k = some (some fd, q)) : q.Apart fd := by
  rcases inherit_eq_some hinh with ⟨hr, _⟩ | ⟨fd', q', htake, hadd, hr⟩ | ⟨_, _, _, _, hr⟩
  · cases hr
  · cases hr
    obtain ⟨hq', -, hfd⟩ := hp.take htake
    have hapart : q'.Apart fd := ⟨(hfd fd rfl).1, by simpa [fileOf] using (hfd fd rfl).2⟩
    exact (hapart.add hq' hadd).1
  · cases hr

end Proc

namespace Systemd

variable {report : Report} {s s' s₀ t t' : Systemd} {e : Event} {fd : RawFd} {c : SystemdCall}

/-! ## The two processes -/

/-- A call that found a number: what it asked for, the number, and the file it returned,
unless it failed. -/
structure Visit where
  call : SystemdCall
  fd : RawFd
  file : Option ℕ

/-- The call of a step, if it found a number. -/
def visits (report : Report) (s : Systemd) (e : Event) (s' : Systemd) : List Visit :=
  match e with
  | .method m =>
    match s.find m.call.name, s.invoke report m with
    | some fd, some (.ok fd', _) => [⟨m.call, fd, s'.proc.fileOf fd'⟩]
    | some fd, some (.error _, _) => [⟨m.call, fd, none⟩]
    | _, _ => []
  | _ => []

/-- The name a step asks for. -/
def asked (_ : Systemd) (e : Event) (_ : Systemd) : List String :=
  match e with
  | .method m => [m.call.name]
  | _ => []

/-- The first process asks for no number twice. -/
def once (r : Systemd × List Visit) : Event → Bool
  | .method m =>
    match r.1.find m.call.name with
    | none => true
    | some fd => decide (fd ∉ r.2.map Visit.fd)
  | _ => true

/-- The child makes the successful calls of the first process again, each name once. -/
def repeats (log : List Visit) (r : Systemd × List String) (e : Event) : Prop :=
  ∀ m, e = .method m → m.call.name ∉ r.2 ∧
    ∃ v ∈ log, v.file.isSome ∧ v.call.name = m.call.name ∧ v.call.sockInfo = m.call.sockInfo

/-- The first process at its start: what systemd passed and the application's numbers are
open and not the registry's. -/
structure Begin (s : Systemd) : Prop extends s.Start where
  wf : s.proc.WF
  owns : s.proc.Owns s.app
  outside : ∀ i < s.env.names.length, SystemdSockets.number i ∉ s.proc.registered

/-- A child at its start, with the registry of `c` and some numbers of its own. -/
def ofChild (c : Proc) (env : Environment) (app : List RawFd) : Systemd :=
  ⟨c, true, env, none, [], app⟩

/-! ## Numbers that do not get mixed up -/

/-- The registry is well-formed, and the listeners' and the application's numbers are open,
different from each other and not the registry's. -/
structure Tidy (s : Systemd) : Prop where
  wf : s.proc.WF
  owns : s.proc.Owns (s.listeners ++ s.app)

/-- A number that nobody has a right to close. -/
structure Reserved (s : Systemd) (fd : RawFd) : Prop where
  apart : s.proc.Apart fd
  unowned : fd ∉ s.listeners ++ s.app

/-- What a step other than a method does: it keeps what is registered, and all numbers that
are reserved. -/
structure Aside (s s' : Systemd) : Prop where
  tidy : s'.Tidy
  ledger : s'.proc.ledger = s.proc.ledger
  reserved : ∀ fd, s.Reserved fd → s'.Reserved fd
  child : s'.child = s.child
  env : s'.env = s.env

/-- One of the owned numbers is closed and given up. -/
theorem Tidy.close (h : s.Tidy) {listeners app : List RawFd}
    (hfd : fd ∈ s.listeners ++ s.app) (hsub : (listeners ++ app).Sublist (s.listeners ++ s.app))
    (hgone : fd ∉ listeners ++ app) :
    Aside s { s.close fd with listeners := listeners, app := app } := by
  have hout := (h.owns.apart fd hfd).outside
  refine ⟨⟨h.wf.closeFdQuiet hout, h.owns.nodup.sublist hsub, fun fd' hfd' => ?_⟩,
    Proc.ledger_closeFdQuiet hout, fun fd' hfd' => ⟨?_, fun hmem => ?_⟩, rfl, rfl⟩
  · refine (h.owns.apart fd' (hsub.subset hfd')).closeFdQuiet ?_
    rintro rfl
    exact hgone hfd'
  · refine hfd'.apart.closeFdQuiet ?_
    rintro rfl
    exact hfd'.unowned hfd
  · exact hfd'.unowned (hsub.subset hmem)

/-- Reading the environment changes flags only. -/
theorem Tidy.read (h : s.Tidy) {res : Except SystemdSocketsReadError Unit}
    (hread : s.readSystemdSockets = some (res, s')) : Aside s s' := by
  rcases readSystemdSockets_eq_some hread with rfl | ⟨-, map, p, rfl, hnames⟩
  · exact ⟨h, rfl, fun _ hfd => hfd, rfl, rfl⟩
  · obtain ⟨hfile, ⟨hinh, hused⟩, -⟩ := SystemdSockets.readNames_spec hnames
    have hkeep : ∀ fd, s.proc.Apart fd → p.Apart fd := fun fd hfd =>
      hfd.congr hinh hused (hfile fd)
    have hwf : p.WF := by
      have hreg : p.registered = s.proc.registered := by
        rw [Proc.registered, hinh, hused]
        rfl
      refine h.wf.shrink (hreg ▸ List.Sublist.refl _) fun fd _ hopen => ?_
      have heq := congrArg Option.isSome (hfile fd)
      simpa [Proc.fileOf, hopen] using heq
    exact ⟨⟨hwf, h.owns.nodup, fun fd hfd => hkeep fd (h.owns.apart fd hfd)⟩,
      Proc.ledger_congr hinh hused fun fd _ => hfile fd,
      fun fd hfd => ⟨hkeep fd hfd.apart, hfd.unowned⟩, rfl, rfl⟩

/-- The application opens a number. -/
theorem Tidy.openFd (h : s.Tidy) (hfree : s.proc.table fd = none) (d : Desc) :
    Aside s { s with proc := s.proc.openFd fd d, app := fd :: s.app } := by
  have hout : fd ∉ s.proc.registered := fun hmem => h.wf.ne_of_free hfree hmem rfl
  have hnew : fd ∉ s.listeners ++ s.app := fun hmem =>
    (h.owns.apart fd hmem).ne_of_free hfree rfl
  have hperm : (s.listeners ++ fd :: s.app).Perm (fd :: (s.listeners ++ s.app)) :=
    List.perm_middle
  refine ⟨⟨h.wf.openFd fd d, hperm.nodup_iff.mpr (List.nodup_cons.mpr ⟨hnew, h.owns.nodup⟩),
    fun fd' hfd' => ?_⟩, Proc.ledger_openFd hout,
    fun fd' hfd' => ⟨hfd'.apart.openFd hfree, fun hmem => ?_⟩, rfl, rfl⟩
  · rcases List.mem_cons.mp (hperm.subset hfd') with rfl | hfd'
    · exact ⟨hout, by simp⟩
    · exact (h.owns.apart fd' hfd').openFd hfree
  · rcases List.mem_cons.mp (hperm.subset hmem) with rfl | hmem
    · exact hfd'.apart.ne_of_free hfree rfl
    · exact hfd'.unowned hmem

/-- **A step that is no method** keeps the registry and the reserved numbers. -/
theorem Tidy.aside (h : s.Tidy) (hstep : s.step report e = some s')
    (he : ∀ m, e ≠ .method m) : Aside s s' := by
  have hnodup := h.owns.nodup
  rw [List.nodup_append] at hnodup
  cases e with
  | read =>
    obtain ⟨⟨res, s₁⟩, hread, rfl⟩ := Option.map_eq_some_iff.mp hstep
    exact h.read hread
  | method m => exact absurd rfl (he m)
  | drop fd =>
    obtain ⟨hfd, hstep⟩ := Option.ite_none_right_eq_some.mp hstep
    cases hstep
    refine h.close (List.mem_append_left _ hfd)
      (List.Sublist.append_right (List.erase_sublist ..) _) fun hmem => ?_
    rcases List.mem_append.mp hmem with hmem | hmem
    · exact (hnodup.1.mem_erase_iff.mp hmem).1 rfl
    · exact hnodup.2.2 fd hfd fd hmem rfl
  | openFd fd d =>
    obtain ⟨hfree, hstep⟩ := Option.ite_none_right_eq_some.mp hstep
    cases hstep
    exact h.openFd hfree d
  | closeFd fd =>
    obtain ⟨hfd, hstep⟩ := Option.ite_none_right_eq_some.mp hstep
    cases hstep
    refine h.close (List.mem_append_right _ hfd)
      (List.Sublist.append_left List.filter_sublist _) fun hmem => ?_
    rcases List.mem_append.mp hmem with hmem | hmem
    · exact hnodup.2.2 fd hmem fd hfd rfl
    · simp at hmem

/-! ## The first process -/

/-- The successful calls of a record. -/
def successes (log : List Visit) : List Visit := log.filter fun v => v.file.isSome

/-- The entry of the registry that a call has made. -/
def Entered (v : Visit) (entry : SockInfo × Option ℕ) : Prop :=
  (entry.1 == v.call.sockInfo) = true ∧ entry.2 = v.file

/-- What holds of the first process and its record: the numbers that it has not asked for are
reserved, the map offers only what systemd passed, and the successful calls have made entries
of the registry, in order. -/
structure Parent (s₀ s : Systemd) (log : List Visit) : Prop where
  first : s.child = false
  env : s.env = s₀.env
  tidy : s.Tidy
  reserved : ∀ i < s.env.names.length, SystemdSockets.number i ∉ log.map Visit.fd →
    s.Reserved (SystemdSockets.number i)
  offered : ∀ name fd, s.find name = some fd →
    ∃ i < s.env.names.length, fd = SystemdSockets.number i
  entered : List.SublistForall₂ Entered (successes log) s.proc.ledger.used

theorem Begin.parent (h : s.Begin) : Parent s s [] := by
  refine ⟨h.first, rfl, ⟨h.wf, ?_⟩, fun i hi _ => ⟨⟨h.outside i hi, (h.passed i hi).1⟩, ?_⟩, ?_,
    .nil⟩
  · rw [h.listeners]
    exact h.owns
  · rw [h.listeners]
    exact (h.passed i hi).2
  · simp [find, h.sockets]

/-- What the map offers after a step that is no method. -/
theorem Parent.offered_aside {log : List Visit} (h : Parent s₀ s log)
    (hstep : s.step report e = some s') (he : ∀ m, e ≠ .method m) {name : String}
    (hfind : s'.find name = some fd) :
    ∃ i < s.env.names.length, fd = SystemdSockets.number i := by
  cases e with
  | read =>
    obtain ⟨⟨res, s₁⟩, hread, rfl⟩ := Option.map_eq_some_iff.mp hstep
    rcases readSystemdSockets_eq_some hread with rfl | ⟨-, map, p, rfl, hnames⟩
    · exact h.offered name fd hfind
    · obtain ⟨-, -, hmap⟩ := SystemdSockets.readNames_spec hnames
      rcases hmap name fd hfind with hfd | ⟨j, hj, rfl⟩
      · cases hfd
      · exact ⟨j, hj, by rw [Nat.zero_add]⟩
  | method m => exact absurd rfl (he m)
  | drop fd' =>
    simp only [Systemd.step] at hstep
    split at hstep <;> cases hstep
    exact h.offered name fd hfind
  | openFd fd' d =>
    simp only [Systemd.step] at hstep
    split at hstep <;> cases hstep
    exact h.offered name fd hfind
  | closeFd fd' =>
    simp only [Systemd.step] at hstep
    split at hstep <;> cases hstep
    exact h.offered name fd hfind

theorem visits_of_ne_method (he : ∀ m, e ≠ .method m) : visits report s e s' = [] := by
  cases e with
  | method m => exact absurd rfl (he m)
  | _ => rfl

/-- A number is registered: the registry stays well-formed, gets one entry, and all other
numbers stay as they are. -/
theorem Tidy.add (h : s.Tidy) {item : ListenerInfo} {p : Proc} (hadd : s.proc.add item = .ok p) :
    Tidy { s with proc := p } ∧
      p.ledger.used = s.proc.ledger.used ++ [(item.sockInfo, s.proc.fileOf item.fd)] ∧
      ∀ fd, s.Reserved fd → Reserved { s with proc := p } fd ∧ p.fileOf fd = s.proc.fileOf fd := by
  refine ⟨⟨(h.wf.add hadd).1, h.owns.nodup, fun fd hfd => ?_⟩, ?_, fun fd hfd => ⟨⟨?_, ?_⟩, ?_⟩⟩
  · exact ((h.owns.apart fd hfd).add h.wf hadd).1
  · rw [(Proc.ledger_add h.wf hadd).1]
    rfl
  · exact (hfd.apart.add h.wf hadd).1
  · exact hfd.unowned
  · exact (hfd.apart.add h.wf hadd).2

/-- A reserved number gets an owner. -/
theorem Tidy.own (h : s.Tidy) (hfd : s.Reserved fd) :
    Tidy { s with listeners := fd :: s.listeners } := by
  refine ⟨h.wf, List.nodup_cons.mpr ⟨hfd.unowned, h.owns.nodup⟩, fun fd' hfd' => ?_⟩
  rcases List.mem_cons.mp hfd' with rfl | hfd'
  · exact hfd.apart
  · exact h.owns.apart fd' hfd'

/-- A reserved number is closed. -/
theorem Tidy.discard (h : s.Tidy) (hfd : s.Reserved fd) :
    (s.close fd).Tidy ∧ (s.close fd).proc.ledger = s.proc.ledger ∧
      ∀ fd', s.Reserved fd' → fd' ≠ fd → (s.close fd).Reserved fd' := by
  refine ⟨⟨h.wf.closeFdQuiet hfd.apart.outside, h.owns.nodup, fun fd' hfd' => ?_⟩,
    Proc.ledger_closeFdQuiet hfd.apart.outside,
    fun fd' hfd' hne => ⟨hfd'.apart.closeFdQuiet hne, hfd'.unowned⟩⟩
  refine (h.owns.apart fd' hfd').closeFdQuiet ?_
  rintro rfl
  exact hfd.unowned hfd'

/-- A step that is no method records nothing. -/
theorem Parent.aside {log : List Visit} (h : Parent s₀ s log) (hstep : s.step report e = some s')
    (he : ∀ m, e ≠ .method m) : Parent s₀ s' log := by
  have haside := h.tidy.aside hstep he
  refine ⟨haside.child.trans h.first, haside.env.trans h.env, haside.tidy, ?_, ?_, ?_⟩
  · rw [haside.env]
    exact fun i hi hnot => haside.reserved _ (h.reserved i hi hnot)
  · rw [haside.env]
    exact fun name fd hfind => h.offered_aside hstep he hfind
  · rw [haside.ledger]
    exact h.entered

/-- A number of systemd's that has not been asked for is registered and gets an owner. -/
theorem Parent.register {log : List Visit} (h : Parent s₀ s log) {c : SystemdCall}
    (hfd : s.Reserved fd) {actual : SockInfo} {p : Proc} (hadd : s.proc.add ⟨fd, actual⟩ = .ok p)
    (hmatch : (actual == c.sockInfo) = true) :
    Parent s₀ { s with proc := p, listeners := fd :: s.listeners }
      (log ++ [⟨c, fd, p.fileOf fd⟩]) := by
  obtain ⟨entries, hentries, hsub⟩ := List.sublistForall₂_iff.mp h.entered
  obtain ⟨htidy, hledger, hkeep⟩ := h.tidy.add hadd
  obtain ⟨file, hfile⟩ := Option.isSome_iff_exists.mp hfd.apart.isOpen
  have hfile' := (hkeep _ hfd).2.trans hfile
  refine ⟨h.first, h.env, htidy.own (hkeep _ hfd).1, fun j hj hnot => ?_, h.offered,
    List.sublistForall₂_iff.mpr ⟨entries ++ [(actual, some file)], ?_, ?_⟩⟩
  · rw [List.map_append, List.mem_append, not_or] at hnot
    obtain ⟨hnot, hne⟩ := hnot
    have hres' := (hkeep _ (h.reserved j hj hnot)).1
    refine ⟨hres'.apart, fun hmem => ?_⟩
    rcases List.mem_cons.mp hmem with heq | hmem
    · exact hne (by simp [heq])
    · exact hres'.unowned hmem
  · rw [successes, List.filter_append]
    refine List.rel_append hentries ?_
    simp [hfile', Entered, hmatch]
  · show List.Sublist _ p.ledger.used
    rw [hledger, hfile]
    exact hsub.append_right _

/-- Such a number is closed; it may have been registered before. -/
theorem Parent.refuse {log : List Visit} (h : Parent s₀ s log) {c : SystemdCall}
    (hfd : s.Reserved fd) {p : Proc}
    (hp : p = s.proc ∨ ∃ actual, s.proc.add ⟨fd, actual⟩ = .ok p) :
    Parent s₀ { s with proc := p.closeFdQuiet fd } (log ++ [⟨c, fd, none⟩]) := by
  obtain ⟨entries, hentries, hsub⟩ := List.sublistForall₂_iff.mp h.entered
  have hbefore : Tidy { s with proc := p } ∧ s.proc.ledger.used.Sublist p.ledger.used ∧
      ∀ fd, s.Reserved fd → Reserved { s with proc := p } fd := by
    rcases hp with rfl | ⟨actual, hadd⟩
    · exact ⟨h.tidy, List.Sublist.refl _, fun _ hfd => hfd⟩
    · obtain ⟨htidy, hledger, hkeep⟩ := h.tidy.add hadd
      refine ⟨htidy, ?_, fun fd hfd => (hkeep fd hfd).1⟩
      rw [hledger]
      exact List.sublist_append_left _ _
  obtain ⟨htidy, hused, hkeep⟩ := hbefore
  obtain ⟨htidy', hledger, hkeep'⟩ := htidy.discard (hkeep _ hfd)
  refine ⟨h.first, h.env, htidy', fun j hj hnot => ?_, h.offered,
    List.sublistForall₂_iff.mpr ⟨entries, ?_, ?_⟩⟩
  · rw [List.map_append, List.mem_append, not_or] at hnot
    obtain ⟨hnot, hne⟩ := hnot
    exact hkeep' _ (hkeep _ (h.reserved j hj hnot)) (by simpa using hne)
  · have hnil : successes (log ++ [⟨c, fd, none⟩]) = successes log := by
      simp [successes, List.filter_append]
    rw [hnil]
    exact hentries
  · show entries.Sublist (Systemd.close { s with proc := p } fd).proc.ledger.used
    rw [hledger]
    exact hsub.trans hused

/-- **A step of the first process** keeps what holds of it and its record. -/
theorem Parent.step {log : List Visit} (h : Parent s₀ s log) (honce : once (s, log) e = true)
    (hstep : s.step report e = some s') : Parent s₀ s' (log ++ visits report s e s') := by
  by_cases he : ∀ m, e ≠ .method m
  · rw [visits_of_ne_method he, List.append_nil]
    exact h.aside hstep he
  push Not at he
  obtain ⟨m, rfl⟩ := he
  obtain ⟨⟨res, t⟩, hres, rfl⟩ := Option.map_eq_some_iff.mp hstep
  simp only [visits, hres]
  rw [invoke_eq] at hres
  cases hfind : s.find m.call.name with
  | none =>
    obtain ⟨err, hperform, -⟩ := perform_of_find_eq_none report h.first hfind
    rw [hperform] at hres
    cases hres
    rw [List.append_nil]
    exact h
  | some fd =>
    -- the number is one of systemd's that has not been asked for
    obtain ⟨i, hi, rfl⟩ := h.offered _ _ hfind
    simp only [once, hfind, decide_eq_true_eq] at honce
    have hfd := h.reserved i hi honce
    rcases perform_of_find_eq_some report h.first hfind with
      ⟨-, actual, p, hadd, hmatch, hperform⟩ | ⟨-, err, p, hp, hperform⟩
    · rw [hperform] at hres
      cases hres
      exact h.register hfd hadd hmatch
    · rw [hperform] at hres
      cases hres
      exact h.refuse hfd hp

/-! ## The child -/

/-- What a call of a child does with what it claims: the listener is returned, or dropped when
`try_from_raw_fd` or the runtime refuses it. -/
theorem perform_of_child (report : Report) (hchild : s.child = true)
    {found : Option RawFd} {p : Proc}
    (hinh : s.proc.inherit c.sockInfo = some (found, p)) :
    (found = none ∧ ∃ err, s.perform report c = some (.error err, { s with proc := p })) ∨
    ∃ fd, found = some fd ∧
      ((c.adopt = none ∧ c.convert = none ∧ s.perform report c
          = some (.ok fd, { s with proc := p, listeners := fd :: s.listeners })) ∨
        ((c.adopt = none → c.convert ≠ none) ∧ ∃ err, s.perform report c
          = some (.error err, { s with proc := p.closeFdQuiet fd }))) := by
  simp only [perform, systemdSockOfProto, hchild, if_true, readSockFromRegistryOfProto, hinh,
    Option.map_some]
  cases found with
  | none => exact .inl ⟨rfl, _, rfl⟩
  | some fd =>
    right
    refine ⟨fd, rfl, ?_⟩
    cases hadopt : c.adopt with
    | some msg => exact .inr ⟨by rintro ⟨⟩, _, rfl⟩
    | none =>
      cases hconv : c.convert with
      | none => exact .inl ⟨rfl, rfl, by simp [converted, hconv]⟩
      | some msg =>
        refine .inr ⟨by simp, .ioError (.os msg), ?_⟩
        simp only [converted, hconv, List.erase_cons_head]
        rfl

/-- An entry is claimed. -/
theorem Tidy.claim (h : s.Tidy) {k : SockInfo} {found : Option RawFd} {p : Proc}
    (hinh : s.proc.inherit k = some (found, p)) :
    Tidy { s with proc := p } ∧ ∀ fd, found = some fd → Reserved { s with proc := p } fd := by
  refine ⟨⟨(h.wf.inherit hinh).1, h.owns.nodup, fun fd hfd => ?_⟩, ?_⟩
  · exact ((h.owns.apart fd hfd).inherit h.wf hinh).1
  · rintro fd rfl
    refine ⟨h.wf.apart_inherit hinh, fun hfd => ?_⟩
    exact ((h.owns.apart fd hfd).inherit h.wf hinh).2 rfl

/-- **A call of a child** keeps the numbers apart, and under other keys all that is not
claimed. -/
theorem Tidy.perform_child (h : s.Tidy) (hchild : s.child = true) {res : SystemdResult}
    (hperform : s.perform report c = some (res, s')) :
    s'.Tidy ∧ s'.child = true ∧ ∀ K, (c.sockInfo == K) = false →
      Ledger.SameFor K s.proc.ledger s'.proc.ledger := by
  obtain ⟨⟨found, p⟩, hinh⟩ := Option.isSome_iff_exists.mp (h.wf.inherit_isSome c.sockInfo)
  obtain ⟨htidy, hfound⟩ := h.claim hinh
  have hsame := fun K => Proc.sameFor_of_inherit (K := K) h.wf hinh
  rcases perform_of_child report hchild hinh with
    ⟨rfl, err, heq⟩ | ⟨fd, rfl, ⟨-, -, heq⟩ | ⟨-, err, heq⟩⟩
  · rw [heq] at hperform
    cases hperform
    exact ⟨htidy, hchild, hsame⟩
  · rw [heq] at hperform
    cases hperform
    exact ⟨htidy.own (hfound fd rfl), hchild, hsame⟩
  · rw [heq] at hperform
    cases hperform
    obtain ⟨htidy', hledger, -⟩ := htidy.discard (hfound fd rfl)
    refine ⟨htidy', hchild, fun K hK => ?_⟩
    show Ledger.SameFor K _ (Systemd.close { s with proc := p } fd).proc.ledger
    rw [hledger]
    exact hsame K hK

/-- Successful calls for different names have different addresses in the child. -/
def Separate (log : List Visit) : Prop :=
  ∀ v ∈ successes log, ∀ v' ∈ successes log, v.call.name ≠ v'.call.name →
    (v.call.sockInfo.onWire == v'.call.sockInfo.onWire) = false

/-- What holds of a child that started with the registry of `c`: what it has not asked for is
unclaimed. -/
structure Child (log : List Visit) (c : Proc) (t : Systemd) (names : List String) : Prop where
  child : t.child = true
  tidy : t.Tidy
  rest : ∀ v ∈ successes log, v.call.sockInfo.plain = true → v.call.name ∉ names →
    queue Prod.fst v.call.sockInfo t.proc.ledger.inherited
      = queue Prod.fst v.call.sockInfo c.ledger.inherited

/-- **A step of the child** keeps what holds of it. -/
theorem Child.step {log : List Visit} {c : Proc} {names : List String} (h : Child log c t names)
    (hsep : Separate log) (hrep : repeats log (t, names) e) (hstep : t.step report e = some t') :
    Child log c t' (names ++ asked t e t') := by
  by_cases he : ∀ m, e ≠ .method m
  · have haside := h.tidy.aside hstep he
    have hnone : asked t e t' = [] := by
      cases e with
      | method m => exact absurd rfl (he m)
      | _ => rfl
    rw [hnone, List.append_nil]
    refine ⟨haside.child.trans h.child, haside.tidy, fun v hv hplain hname => ?_⟩
    rw [haside.ledger]
    exact h.rest v hv hplain hname
  push Not at he
  obtain ⟨m, rfl⟩ := he
  obtain ⟨⟨res, t₁⟩, hres, rfl⟩ := Option.map_eq_some_iff.mp hstep
  rw [invoke_eq] at hres
  obtain ⟨htidy, hchild, hsame⟩ := h.tidy.perform_child h.child hres
  obtain ⟨-, v', hv', hsome, hname', hinfo⟩ := hrep m rfl
  have hv' : v' ∈ successes log := List.mem_filter.mpr ⟨hv', hsome⟩
  refine ⟨hchild, htidy, fun v hv hplain hname => ?_⟩
  rw [List.mem_append, not_or] at hname
  obtain ⟨hname, hne⟩ := hname
  rw [← h.rest v hv hplain hname]
  -- the call was for another name, so for another address
  have hkey : (m.call.sockInfo == v.call.sockInfo) = false := by
    have hdiff := hsep v' hv' v hv fun heq => hne (by simp [asked, ← heq, hname'])
    by_contra hsame
    rw [SockInfo.onWire_beq (by rw [hinfo]; simpa using hsame)] at hdiff
    cases hdiff
  exact (hsame _ hkey).inherited

/-- **What a child finds under an address**: the one entry that the first process has made
for it. -/
theorem Parent.queue_child {log : List Visit} {c : Proc} (h : Parent s₀ s log)
    (hdistinct : s.proc.usedFds.Pairwise fun a b =>
      (a.sockInfo.onWire == b.sockInfo.onWire) = false)
    (hc : s.proc.spawnChild s.proc.usedFds = some c) {v : Visit} (hv : v ∈ successes log)
    (hplain : v.call.sockInfo.plain = true) :
    ∃ k, queue Prod.fst v.call.sockInfo c.ledger.inherited = [(k, v.file)] := by
  obtain ⟨entry, hentry, hkey, hfile⟩ := exists_of_sublistForall₂ h.entered hv
  obtain ⟨li, hli, rfl⟩ := List.mem_map.mp hentry
  have hwire : li.sockInfo.onWire = li.sockInfo :=
    (SockInfo.onWire_eq_iff _).mpr (SockInfo.plain_of_beq hkey hplain)
  rw [Proc.ledger_spawnChild hc, ← hfile]
  refine ⟨_, queue_eq_singleton (List.pairwise_map.mpr hdistinct)
    (List.mem_map_of_mem hli) ?_⟩
  show (li.sockInfo.onWire == v.call.sockInfo) = true
  rw [hwire]
  exact hkey

theorem Parent.separate {log : List Visit} (h : Parent s₀ s log)
    (hdistinct : s.proc.usedFds.Pairwise fun a b =>
      (a.sockInfo.onWire == b.sockInfo.onWire) = false) : Separate log := by
  have hused : s.proc.ledger.used.Pairwise fun a b => (a.1.onWire == b.1.onWire) = false :=
    List.pairwise_map.mpr hdistinct
  have hpairwise : (successes log).Pairwise fun v v' =>
      (v.call.sockInfo.onWire == v'.call.sockInfo.onWire) = false := by
    refine pairwise_of_sublistForall₂ h.entered (fun v v' x y hx hy hxy => ?_) hused
    rw [← hxy, BEq.congr_left (SockInfo.onWire_beq hx.1),
      BEq.congr_right (SockInfo.onWire_beq hy.1)]
  have hsymm : Std.Symm fun v v' : Visit =>
      (v.call.sockInfo.onWire == v'.call.sockInfo.onWire) = false :=
    ⟨fun v v' hvv' => by rw [BEq.comm, hvv']⟩
  intro v hv v' hv' hne
  refine hpairwise.forall hv hv' ?_
  rintro rfl
  exact hne rfl

end Systemd

/-- **A child's call returns the socket of the first process's call for the same name**, or
fails, when what the first process has registered has different addresses in the child, and
the address asked for survives the encoding: whatever the order of the calls in the two
processes, and whatever else they open and close.  It fails only when the number cannot be
duplicated, or `try_from_raw_fd` or the runtime refuses it. -/
theorem systemd_child_agrees (report : Report) {s₀ s t : Systemd} {log : List Systemd.Visit}
    {c : Proc} {env : Environment} {app : List RawFd} {names : List String} (h0 : s₀.Begin)
    (hs : ((systemd report s₀).recording (Systemd.visits report)).ReachableVia
      (fun r e => Systemd.once r e = true) (s, log))
    (hdistinct : s.proc.usedFds.Pairwise fun a b =>
      (a.sockInfo.onWire == b.sockInfo.onWire) = false)
    (hc : s.proc.spawnChild s.proc.getFdsForChild = some c) (happ : c.Owns app)
    (ht : ((systemd report (.ofChild c env app)).recording Systemd.asked).ReachableVia
      (Systemd.repeats log) (t, names))
    {v : Systemd.Visit} {file : ℕ} (hv : v ∈ log) (hfile : v.file = some file)
    {m : SystemdMethod} (hname : m.call.name = v.call.name)
    (hinfo : m.call.sockInfo = v.call.sockInfo) (hplain : m.call.sockInfo.plain = true)
    (hfirst : m.call.name ∉ names) :
    ∃ res t', t.invoke report m = some (res, t') ∧
      (∀ fd, res = .ok fd → t'.proc.fileOf fd = some file) ∧
      (m.call.adopt = none → m.call.convert = none →
        (∀ fd p, t.proc.take m.call.sockInfo = some (some fd, p) → (p.cloneFd fd).isOk = true) →
        ∃ fd, res = .ok fd) := by
  have hparent : Systemd.Parent s₀ s log :=
    hs.recorded (I := Systemd.Parent s₀) (by rintro s rfl; exact h0.parent)
      fun s log e s' _ h honce hstep => h.step honce hstep
  have hchild : Systemd.Child log c t names := by
    refine ht.recorded (I := Systemd.Child log c) ?_
      fun t names e t' _ h hrep hstep => h.step (hparent.separate hdistinct) hrep hstep
    rintro t rfl
    exact ⟨rfl, ⟨hparent.tidy.wf.spawnChild (List.prefix_refl _) hc, happ⟩, fun _ _ _ _ => rfl⟩
  have hv' : v ∈ Systemd.successes log := List.mem_filter.mpr ⟨hv, by simp [hfile]⟩
  -- the address has one unclaimed entry in the child, and its file is the one
  obtain ⟨k, hqueue⟩ := hparent.queue_child hdistinct hc hv' (hinfo ▸ hplain)
  rw [← hchild.rest v hv' (hinfo ▸ hplain) (hname ▸ hfirst), ← hinfo, hfile] at hqueue
  have hfind : t.proc.ledger.find m.call.sockInfo = some (some file) := by
    rw [Ledger.find, find?_eq_head?_queue, hqueue]
    rfl
  obtain ⟨⟨found, p⟩, hinh⟩ :=
    Option.isSome_iff_exists.mp (hchild.tidy.wf.inherit_isSome m.call.sockInfo)
  rw [Systemd.invoke_eq]
  rcases Proc.inherit_eq_some hinh with
    ⟨-, -, htake⟩ | ⟨fd, q, htake, hadd, rfl⟩ | ⟨fd, err, htake, hadd, rfl⟩
  · rw [(Proc.ledger_take_none htake).2] at hfind
    cases hfind
  · have hopen : p.fileOf fd = some file := by
      obtain ⟨-, hfound, -⟩ := Proc.ledger_take htake
      obtain ⟨hq, -, hfd⟩ := hchild.tidy.wf.take htake
      rw [hfind, Option.some.injEq] at hfound
      rw [(Proc.ledger_add hq hadd).2 fd (hfd fd rfl).2, ← hfound]
    rcases Systemd.perform_of_child report hchild.child hinh with
      ⟨hr, -⟩ | ⟨fd', hr, ⟨-, -, hperform⟩ | ⟨hrefused, err, hperform⟩⟩
    · cases hr
    · cases hr
      refine ⟨_, _, hperform, ?_, fun _ _ _ => ⟨fd, rfl⟩⟩
      rintro fd' ⟨⟩
      exact hopen
    · exact ⟨_, _, hperform, by rintro _ ⟨⟩, fun ha hconv => absurd hconv (hrefused ha)⟩
  · rcases Systemd.perform_of_child report hchild.child hinh with
      ⟨-, err', hperform⟩ | ⟨fd', hr, -⟩
    · refine ⟨_, _, hperform, by rintro _ ⟨⟩, fun _ _ hdup => ?_⟩
      exact absurd hadd (Proc.add_ne_error (hdup fd p htake))
    · cases hr

/-! ## Two sockets -/

/-- systemd passes two TCP sockets, under the names `a` and `b`. -/
def twoSockets : Systemd where
  proc := ⟨16, fun fd => if fd = 3 then some ⟨7, false⟩ else if fd = 4 then some ⟨8, false⟩
    else none, [], []⟩
  child := false
  env := ⟨100, .ok 100, .ok "a:b"⟩
  sockets := none
  listeners := []
  app := []

/-- The sockets are bound to two ports. -/
def portsReport (a b : UInt16) : Report := fun file _ =>
  if file = 7 then .ok (.tcp (localhost a)) else .ok (.tcp (localhost b))

theorem begin_twoSockets : twoSockets.Begin := by
  refine ⟨⟨rfl, rfl, rfl, by decide +kernel⟩, ⟨List.nodup_nil, ?_⟩, ⟨List.nodup_nil, ?_⟩, ?_⟩
  · rintro _ ⟨⟩
  · rintro _ ⟨⟩
  · rintro _ _ ⟨⟩

/-- A call for one of the two. -/
def askFor (name : String) (port : UInt16) : SystemdMethod := .listenTcp name (localhost port) none

/-- The first process asks for `a` and then for `b`; this is the process with its record, what
it has recorded, and the child it starts. -/
def upgradeBoth (a b : UInt16) :
    Option ((Systemd × List Systemd.Visit) × Systemd.Visit × Systemd.Visit × Proc) :=
  (((systemd (portsReport a b) twoSockets).recording (Systemd.visits (portsReport a b))).runVia
    Systemd.once (twoSockets, [])
    [.read, .method (askFor "a" a), .method (askFor "b" b)]).bind fun r =>
      r.2[0]?.bind fun v => r.2[1]?.bind fun v' =>
        (r.1.proc.spawnChild r.1.proc.getFdsForChild).map fun c => (r, v, v', c)

/-- What `upgradeBoth` consists of. -/
theorem upgradeBoth_eq_some {a b : UInt16} {r : Systemd × List Systemd.Visit}
    {v v' : Systemd.Visit} {c : Proc} (h : upgradeBoth a b = some (r, v, v', c)) :
    ((systemd (portsReport a b) twoSockets).recording
        (Systemd.visits (portsReport a b))).ReachableVia (fun r e => Systemd.once r e = true) r ∧
      v ∈ r.2 ∧ v' ∈ r.2 ∧ r.1.proc.spawnChild r.1.proc.getFdsForChild = some c := by
  obtain ⟨r', hrun, h⟩ := Option.bind_eq_some_iff.mp h
  obtain ⟨w, hw, h⟩ := Option.bind_eq_some_iff.mp h
  obtain ⟨w', hw', h⟩ := Option.bind_eq_some_iff.mp h
  obtain ⟨c', hc, heq⟩ := Option.map_eq_some_iff.mp h
  cases heq
  have hinit : ((systemd (portsReport a b) twoSockets).recording
      (Systemd.visits (portsReport a b))).Init (twoSockets, []) := ⟨rfl, rfl⟩
  exact ⟨TransitionSystem.reachableVia_of_runVia (.init hinit) hrun,
    List.mem_of_getElem? hw, List.mem_of_getElem? hw', hc⟩

/-- The visit is a call of `askFor`, and returned `file`. -/
def Systemd.Visit.isFor (v : Systemd.Visit) (name : String) (port : UInt16) (file : ℕ) : Bool :=
  v.call.name == name && v.call.sockInfo == .tcp (localhost port) && v.file == some file

theorem Systemd.Visit.isFor_iff {v : Systemd.Visit} {name : String} {port : UInt16} {file : ℕ}
    (h : v.isFor name port file = true) :
    v.call.name = (askFor name port).call.name ∧
      v.call.sockInfo = (askFor name port).call.sockInfo ∧ v.file = some file := by
  simp only [isFor, Bool.and_eq_true, beq_iff_eq] at h
  obtain ⟨⟨hname, hinfo⟩, hfile⟩ := h
  refine ⟨hname, ?_, hfile⟩
  rw [SockInfo.beq_iff_key] at hinfo
  cases hk : v.call.sockInfo <;> simp_all [SockInfo.key, askFor, SystemdMethod.call]

/-- Both sockets are bound to the same port, and the child asks for `b` first: it gets the
socket that the first process got for `a`. -/
theorem same_address_exchanged :
    ∃ s log c v fd t', twoSockets.Begin ∧
      ((systemd (portsReport 80 80) twoSockets).recording
        (Systemd.visits (portsReport 80 80))).ReachableVia (fun r e => Systemd.once r e = true)
        (s, log) ∧
      s.proc.spawnChild s.proc.getFdsForChild = some c ∧ v ∈ log ∧
      v.call.name = (askFor "b" 80).call.name ∧
      v.call.sockInfo = (askFor "b" 80).call.sockInfo ∧ v.file = some 8 ∧
      (Systemd.ofChild c twoSockets.env []).invoke (portsReport 80 80) (askFor "b" 80)
        = some (.ok fd, t') ∧
      t'.proc.fileOf fd = some 7 := by
  have hrun : ((upgradeBoth 80 80).bind fun x =>
      ((Systemd.ofChild x.2.2.2 twoSockets.env []).invoke (portsReport 80 80)
        (askFor "b" 80)).map fun y => x.2.2.1.isFor "b" 80 8 &&
          match y.1 with
          | .ok fd => y.2.proc.fileOf fd == some 7
          | .error _ => false) = some true := by
    decide +kernel
  obtain ⟨⟨⟨s, log⟩, v, v', c⟩, hup, h⟩ := Option.bind_eq_some_iff.mp hrun
  obtain ⟨⟨res, t'⟩, hinvoke, h⟩ := Option.map_eq_some_iff.mp h
  obtain ⟨hreach, -, hv', hc⟩ := upgradeBoth_eq_some hup
  rw [Bool.and_eq_true] at h
  obtain ⟨hname, hinfo, hfile⟩ := Systemd.Visit.isFor_iff h.1
  cases res with
  | error err => cases h.2
  | ok fd =>
    exact ⟨s, log, c, v', fd, t', begin_twoSockets, hreach, hc, hv', hname, hinfo, hfile,
      hinvoke, by simpa using h.2⟩

/-- With two ports, the child gets what it asks for, also when it asks for `b` first. -/
theorem systemd_child_agrees_two :
    ∃ s log c t v fd t', twoSockets.Begin ∧
      ((systemd (portsReport 80 81) twoSockets).recording
        (Systemd.visits (portsReport 80 81))).ReachableVia (fun r e => Systemd.once r e = true)
        (s, log) ∧
      s.proc.spawnChild s.proc.getFdsForChild = some c ∧
      ((systemd (portsReport 80 81) (.ofChild c twoSockets.env [])).recording
        Systemd.asked).ReachableVia (Systemd.repeats log) (t, ["b"]) ∧
      v ∈ log ∧ v.call.name = (askFor "a" 80).call.name ∧
      v.call.sockInfo = (askFor "a" 80).call.sockInfo ∧ v.file = some 7 ∧
      t.invoke (portsReport 80 81) (askFor "a" 80) = some (.ok fd, t') ∧
      t'.proc.fileOf fd = some 7 := by
  have hrun : ((upgradeBoth 80 81).bind fun x =>
      ((systemd (portsReport 80 81) (.ofChild x.2.2.2 twoSockets.env [])).step
        (.ofChild x.2.2.2 twoSockets.env []) (.method (askFor "b" 81))).map fun t =>
          x.2.1.isFor "a" 80 7 && x.2.2.1.isFor "b" 81 8 &&
          decide (x.1.1.proc.usedFds.Pairwise fun a b =>
            (a.sockInfo.onWire == b.sockInfo.onWire) = false) &&
          t.proc.dupsSucceed (.tcp (localhost 80)) (.failed "")) = some true := by
    decide +kernel
  obtain ⟨⟨⟨s, log⟩, v, v', c⟩, hup, h⟩ := Option.bind_eq_some_iff.mp hrun
  obtain ⟨t, hstep, h⟩ := Option.map_eq_some_iff.mp h
  obtain ⟨hreach, hv, hv', hc⟩ := upgradeBoth_eq_some hup
  simp only [Bool.and_eq_true, decide_eq_true_eq] at h
  obtain ⟨⟨⟨ha, hb⟩, hdistinct⟩, hdup⟩ := h
  obtain ⟨hname, hinfo, hfile⟩ := Systemd.Visit.isFor_iff ha
  obtain ⟨hname', hinfo', hfile'⟩ := Systemd.Visit.isFor_iff hb
  have ht : ((systemd (portsReport 80 81) (.ofChild c twoSockets.env [])).recording
      Systemd.asked).ReachableVia (Systemd.repeats log) (t, ["b"]) := by
    have hinit : ((systemd (portsReport 80 81) (.ofChild c twoSockets.env [])).recording
        Systemd.asked).Init (.ofChild c twoSockets.env [], []) := ⟨rfl, rfl⟩
    refine .step (.init hinit) ?_ (TransitionSystem.recording_step_eq_some.mpr ⟨hstep, rfl⟩)
    rintro _ ⟨⟩
    exact ⟨by simp, v', hv', by simp [hfile'], hname', hinfo'⟩
  have happ : c.Owns [] := ⟨List.nodup_nil, by rintro _ ⟨⟩⟩
  obtain ⟨res, t', hinvoke, hsame, hok⟩ := systemd_child_agrees (portsReport 80 81)
    begin_twoSockets hreach hdistinct hc happ ht hv hfile hname.symm hinfo.symm rfl
    (by decide +kernel)
  obtain ⟨fd, rfl⟩ := hok rfl rfl fun fd p htake => by
    simp only [Proc.dupsSucceed] at hdup
    have htake' : t.proc.take (.tcp (localhost 80)) = some (some fd, p) := htake
    simpa [htake'] using hdup
  exact ⟨s, log, c, t, v, fd, t', begin_twoSockets, hreach, hc, ht, hv, hname, hinfo, hfile,
    hinvoke, hsame fd rfl⟩
