/-
# Sockets for the runtime are non-blocking

The runtime polls its sockets, so their open files must have `O_NONBLOCK`.  The flag belongs
to the open file and is shared by all duplicates, in all processes.  Most methods of
`TokioEcdysis` set it on the socket they hand out; `listen_unix_seqpacket` does not, and
relies on whoever made the socket, perhaps generations ago.

`Fleet` is a process, its upgrade children, their children and so on, with the flags of all
open files.  Its processes call the methods of `Ecdysis` and `TokioEcdysis` in any order,
open and close numbers of their own, and start children.  `fcntl` does not fail, and nobody
else changes a flag.

* `nonblocking_of_spared` : what a method hands out is non-blocking, in every run that spares
  the registries: no listener is made of, and no owner closes, a number that a registry
  holds.
* `reused_number_hands_out_blocking` : a failed systemd call closes a number that it goes on
  offering; once the registry holds it, the next failed call closes it there, and what is
  opened under it next is handed out in the child.
-/
import Ecdysis.CloseOnExec
import Ecdysis.Lookup
import Ecdysis.SystemdSockets

/-! ## Flags -/

/-- The open files there are, with their flag `O_NONBLOCK`. -/
abbrev Flags := ℕ → Option Bool

namespace Flags

/-- A new open file. -/
def enter (flags : Flags) (file : ℕ) (b : Bool) : Flags := Function.update flags file (some b)

/-- `set_nonblocking(true)` on a number of the process. -/
def setNonblocking (flags : Flags) (p : Proc) (fd : RawFd) : Flags :=
  match p.fileOf fd with
  | none => flags
  | some file => flags.enter file true

/-- `set_nonblocking(true)` on the listener a call has returned, if it has. -/
def setReturned (flags : Flags) (p : Proc) : SystemdResult → Flags
  | .error _ => flags
  | .ok fd => flags.setNonblocking p fd

/-- The open file of a new socket. -/
def created (flags : Flags) (b : Bool) : Creation SockInfo → Flags
  | .failed _ => flags
  | .created _ file _ => flags.enter file b

/-- The open files of a new pair, which are blocking. -/
def paired (flags : Flags) : Pair → Flags
  | .failed _ => flags
  | .made _ _ file file' => (flags.enter file false).enter file' false

/-- No open file becomes blocking. -/
def Grows (flags flags' : Flags) : Prop :=
  ∀ file, flags file = some true → flags' file = some true

variable {flags flags' flags'' : Flags} {file : ℕ} {p : Proc} {fd : RawFd}

theorem Grows.refl (flags : Flags) : flags.Grows flags := fun _ h => h

theorem Grows.trans (h : flags.Grows flags') (h' : flags'.Grows flags'') : flags.Grows flags'' :=
  fun file hfile => h' file (h file hfile)

@[simp] theorem enter_self (flags : Flags) (file : ℕ) (b : Bool) :
    flags.enter file b file = some b := by
  simp [enter]

theorem enter_of_ne {file' : ℕ} (h : file' ≠ file) (b : Bool) :
    flags.enter file b file' = flags file' := by
  simp [enter, h]

/-- A file that is new was not non-blocking before. -/
theorem grows_enter (h : flags file = none) (b : Bool) : flags.Grows (flags.enter file b) := by
  intro file' hfile'
  have hne : file' ≠ file := by
    rintro rfl
    rw [h] at hfile'
    cases hfile'
  rw [enter_of_ne hne, hfile']

theorem grows_enter_true (flags : Flags) (file : ℕ) : flags.Grows (flags.enter file true) := by
  intro file' hfile'
  by_cases h : file' = file
  · rw [h, enter_self]
  · rw [enter_of_ne h, hfile']

theorem grows_setNonblocking (flags : Flags) (p : Proc) (fd : RawFd) :
    flags.Grows (flags.setNonblocking p fd) := by
  unfold setNonblocking
  split
  · exact .refl _
  · exact grows_enter_true _ _

theorem setNonblocking_of_fileOf (flags : Flags) (h : p.fileOf fd = some file) :
    flags.setNonblocking p fd file = some true := by
  simp [setNonblocking, h]

end Flags

/-! ## The methods -/

/-- A request for a seqpacket socket. -/
def Request.isSeqpacket : Request → Bool
  | .unixSeqpacket _ _ _ => true
  | _ => false

/-- A method of `TokioEcdysis` that hands out one socket, with the flag its closure gives a new
socket and the error of `from_std`, if there is one. -/
inductive TokioMethod
  | listenUnix (path : PathBuf) (c : Creation (Option PathBuf)) (err : Option String)
  | listenUnixSeqpacket (path : PathBuf) (c : Creation PathBuf) (adopt : Bool)
  | buildListenTcp (addr : SocketAddr) (c : Creation SocketAddr) (flag : Bool)
      (err : Option String)
  | buildStreamUdp (addr : SocketAddr) (c : Creation SocketAddr) (flag : Bool)
      (err : Option String)
  | buildStoppableSocketUdp (addr : SocketAddr) (c : Creation SocketAddr) (flag : Bool)
      (err : Option String)

namespace TokioMethod

/-- The method of `Ecdysis` it calls. -/
def request : TokioMethod → Request
  | .listenUnix path c _ => .unix path c
  | .listenUnixSeqpacket path c adopt => .unixSeqpacket path c adopt
  | .buildListenTcp addr c _ _ => .tcp addr c
  | .buildStreamUdp addr c _ _ | .buildStoppableSocketUdp addr c _ _ => .udp addr c

/-- The flag of a new socket: the standard library's are blocking, the seqpacket listener's
are not, and a closure may choose. -/
def flag : TokioMethod → Bool
  | .listenUnix _ _ _ => false
  | .listenUnixSeqpacket _ _ _ => true
  | .buildListenTcp _ _ flag _ | .buildStreamUdp _ _ flag _
  | .buildStoppableSocketUdp _ _ flag _ => flag

/-- The error of `from_std`. -/
def err : TokioMethod → Option String
  | .listenUnix _ _ err | .buildListenTcp _ _ _ err | .buildStreamUdp _ _ _ err
  | .buildStoppableSocketUdp _ _ _ err => err
  | .listenUnixSeqpacket _ _ _ => none

end TokioMethod

/-- A process, and the list it last took for a child. -/
structure Member where
  sys : Systemd
  snapshot : List ListenerInfo

namespace Member

/-- The process with its registry. -/
def proc (m : Member) : Proc := m.sys.proc

/-- The registry has changed. -/
def withProc (m : Member) (p : Proc) : Member := { m with sys := { m.sys with proc := p } }

/-- The sockets that are returned. -/
def numbers {ε : Type} : Except ε RawFd → List RawFd
  | .ok fd => [fd]
  | .error _ => []

/-- A listening method of `Ecdysis`.  A new socket is made only when nothing is inherited. -/
def listen (m : Member) (flags : Flags) (r : Request) (flag : Bool) :
    Option (Except ListenError RawFd × Member × Flags) :=
  (m.proc.listen r).map fun (res, q) =>
    (res.map Prod.snd, m.withProc q,
      if m.proc.claims r.key then flags else flags.created flag r.creation)

/-- `set_nonblocking` and `from_std`: the flag is set, and the socket is handed out or
dropped. -/
def fromStd (res : Except ListenError RawFd) (m : Member) (flags : Flags) (err : Option String) :
    List RawFd × Member × Flags :=
  match res with
  | .error _ => ([], m, flags)
  | .ok fd =>
    let x := m.proc.fromStd fd err
    (numbers x.1, m.withProc x.2, flags.setNonblocking m.proc fd)

/-- The methods of `TokioEcdysis` that hand out one socket.  All but that for seqpacket sockets
set the flag. -/
def tokio (m : Member) (flags : Flags) (t : TokioMethod) : Option (List RawFd × Member × Flags) :=
  (m.listen flags t.request t.flag).map fun (res, m', flags') =>
    if t.request.isSeqpacket then (numbers res, m', flags')
    else fromStd res m' flags' t.err

/-- `Ecdysis::unix_datagram_pair`. -/
def datagramPair (m : Member) (flags : Flags) (name : String) (c : Pair) :
    Option ((Option RawFd × Except ListenError RawFd) × Member × Flags) :=
  (m.proc.unixDatagramPair name c).map fun (res, q) => (res, m.withProc q, flags.paired c)

/-- `from_std` on the end to the parent, if there is one. -/
def mapFromStd (x : Option RawFd) (m : Member) (flags : Flags) (err : Option String) :
    List RawFd × Member × Flags :=
  match x with
  | none => ([], m, flags)
  | some fd => fromStd (.ok fd) m flags err

/-- `TokioEcdysis::unix_datagram_pair`: `from_std` on the end to the parent, then on the end to
the child. -/
def tokioDatagramPair (m : Member) (flags : Flags) (name : String) (c : Pair)
    (errToParent errToChild : Option String) : Option (List RawFd × Member × Flags) :=
  (m.datagramPair flags name c).map fun (res, m', flags') =>
    let toParent := mapFromStd res.1 m' flags' errToParent
    let toChild := fromStd res.2 toParent.2.1 toParent.2.2 errToChild
    (toParent.1 ++ toChild.1, toChild.2.1, toChild.2.2)

/-- The `systemd_*` methods: `systemd_sock_of_proto`, then the flag is set and the listener
turned into one of the runtime's. -/
def systemd (report : Report) (m : Member) (flags : Flags) (c : SystemdCall) :
    Option (List RawFd × Member × Flags) :=
  (m.sys.systemdSockOfProto report c).map fun (res, s) =>
    let x := Systemd.converted c (res, s)
    (numbers x.1, { m with sys := x.2 }, flags.setReturned s.proc res)

end Member

/-! ## The fleet -/

/-- All processes, in the order of their start, and the flags of the open files. -/
structure Fleet where
  members : List Member
  flags : Flags

/-- What a process can do: call a method of `Ecdysis` or `TokioEcdysis`, open a number, for a
new file with the given flag or for one that there is, close a number, which is also how a
socket is dropped, take the list for a child, and call `ready`. -/
inductive Member.Action
  | std (r : Request) (flag : Bool)
  | stdDatagramPair (name : String) (c : Pair)
  | tokio (t : TokioMethod)
  | tokioDatagramPair (name : String) (c : Pair) (errToParent errToChild : Option String)
  | readSystemdSockets
  | systemd (t : SystemdMethod)
  | openFd (fd : RawFd) (d : Desc) (flag : Bool)
  | closeFd (fd : RawFd)
  | snapshot
  | ready

/-- The open file of a new socket is new. -/
def Creation.isNew (c : Creation SockInfo) (flags : Flags) : Bool :=
  match c with
  | .failed _ => true
  | .created _ file _ => (flags file).isNone

/-- The open files of a new pair are new and distinct. -/
def Pair.isNew (c : Pair) (flags : Flags) : Bool :=
  match c with
  | .failed _ => true
  | .made _ _ file file' => (flags file).isNone && (flags file').isNone && file != file'

namespace Member

/-- What the system allows.  The seqpacket method of `Ecdysis` is private, and the only way in
which the one of systemd could fail at the end is `fcntl`. -/
def allows (m : Member) (flags : Flags) : Action → Bool
  | .std r _ => !r.isSeqpacket && r.creation.isFree m.proc.table && r.creation.isNew flags
  | .stdDatagramPair _ c => c.isFree m.proc.table && c.isNew flags
  | .tokio t => t.request.creation.isFree m.proc.table && t.request.creation.isNew flags
  | .tokioDatagramPair _ c _ _ => c.isFree m.proc.table && c.isNew flags
  | .systemd t => t.call.kind != .unixSeqpacket || t.call.convert.isNone
  | .openFd fd _ _ => (m.proc.table fd).isNone
  | _ => true

/-- An action: the sockets it hands to the runtime, and what it makes of the process and the
flags. -/
def act (report : Report) (m : Member) (flags : Flags) :
    Action → Option (List RawFd × Member × Flags)
  | .std r flag => (m.listen flags r flag).map fun (_, m', flags') => ([], m', flags')
  | .stdDatagramPair name c => (m.datagramPair flags name c).map fun (_, m', flags') =>
      ([], m', flags')
  | .tokio t => m.tokio flags t
  | .tokioDatagramPair name c errToParent errToChild =>
    m.tokioDatagramPair flags name c errToParent errToChild
  | .readSystemdSockets => m.sys.readSystemdSockets.map fun (_, s) =>
      ([], { m with sys := s }, flags)
  | .systemd t => m.systemd report flags t.call
  | .openFd fd d flag =>
    some ([], m.withProc (m.proc.openFd fd d),
      if (flags d.file).isNone then flags.enter d.file flag else flags)
  | .closeFd fd => some ([], m.withProc (m.proc.closeFdQuiet fd), flags)
  | .snapshot => some ([], { m with snapshot := m.proc.getFdsForChild }, flags)
  | .ready => some ([], m.withProc m.proc.closeInherited, flags)

/-- **What spares the registry**: no listener is made of a number it holds, and none of its
numbers is closed by another owner. -/
def spares (m : Member) : Action → Bool
  | .systemd t => (m.sys.find t.call.name).all fun fd => fd ∉ m.proc.registered
  | .closeFd fd => fd ∉ m.proc.registered
  | _ => true

/-- An upgrade child. -/
def child (m : Member) (p : Proc) : Member :=
  ⟨{ m.sys with proc := p, child := true, sockets := none, listeners := [], app := [] }, []⟩

end Member

namespace Fleet

/-- A process does something, or starts a child with the list it has taken. -/
inductive Event
  | act (i : ℕ) (a : Member.Action)
  | spawn (i : ℕ)

/-- What an event hands to the runtime, and the fleet after it. -/
def handle (report : Report) (s : Fleet) : Event → Option (List RawFd × Fleet)
  | .act i a => s.members[i]?.bind fun m =>
      if m.allows s.flags a then
        (m.act report s.flags a).map fun (fds, m', flags') => (fds, ⟨s.members.set i m', flags'⟩)
      else none
  | .spawn i => s.members[i]?.bind fun m =>
      (m.proc.spawnChild m.snapshot).map fun c =>
        ([], { s with members := s.members ++ [m.child c] })

/-- The event spares the registry of its process. -/
def spares (s : Fleet) : Event → Bool
  | .act i a => s.members[i]?.all fun m => m.spares a
  | .spawn _ => true

/-- The numbers refer to non-blocking files in the process that handled the event. -/
def Nonblocking (s : Fleet) : Event → List RawFd → Prop
  | .act i _, fds => ∀ fd ∈ fds, ∃ m file, s.members[i]? = some m ∧
      m.proc.fileOf fd = some file ∧ s.flags file = some true
  | .spawn _, fds => fds = []

end Fleet

/-- The runs of a fleet.  It starts with one process that is no child, has nothing registered
and whose numbers refer to files that there are. -/
def fleet (report : Report) : TransitionSystem Fleet Fleet.Event where
  Init := fun s => ∃ m, s.members = [m] ∧ m.sys.child = false ∧ m.snapshot = [] ∧
    m.proc.inheritedFds = [] ∧ m.proc.usedFds = [] ∧
    ∀ fd d, m.proc.table fd = some d → (s.flags d.file).isSome = true
  step := fun s e => (s.handle report e).map Prod.snd

/-! ## What the operations do to seqpacket entries -/

/-- A call that fails returns nothing. -/
theorem Except.forall_ok_of_error {ε α : Type} {e : ε} {P : α → Prop} :
    ∀ a, (Except.error e : Except ε α) = .ok a → P a := by
  intro a h
  cases h

/-- The description of a seqpacket socket. -/
def SockInfo.isSeqpacket : SockInfo → Bool
  | .unixSeqpacket _ => true
  | _ => false

theorem SockInfo.isSeqpacket_of_beq {k l : SockInfo} (h : (k == l) = true) :
    k.isSeqpacket = l.isSeqpacket := by
  cases k <;> cases l <;> first | rfl | cases h

theorem SockInfo.isSeqpacket_onWire (k : SockInfo) : k.onWire.isSeqpacket = k.isSeqpacket := by
  cases k <;> rfl

theorem Request.isSeqpacket_key (r : Request) : r.key.isSeqpacket = r.isSeqpacket := by
  cases r <;> rfl

/-- A new socket is reported to be of the kind that was asked for. -/
theorem Request.isSeqpacket_created {r : Request} {fd : RawFd} {file : ℕ} {info : SockInfo}
    (h : r.creation = .created fd file info) : info.isSeqpacket = r.isSeqpacket := by
  cases r with
  | unix path c | unixSeqpacket path c adopt | tcp addr c | udp addr c =>
    cases c <;> cases h
    rfl

namespace Flags

variable {flags : Flags}

theorem grows_created {c : Creation SockInfo} (h : c.isNew flags = true) (b : Bool) :
    flags.Grows (flags.created b c) := by
  cases c with
  | failed msg => exact .refl _
  | created fd file info => exact grows_enter (by simpa [Creation.isNew] using h) b

theorem grows_paired {c : Pair} (h : c.isNew flags = true) : flags.Grows (flags.paired c) := by
  cases c with
  | failed msg => exact .refl _
  | made toChild childs file file' =>
    simp only [Pair.isNew, Bool.and_eq_true, Option.isNone_iff_eq_none, bne_iff_ne] at h
    obtain ⟨⟨hfile, hfile'⟩, hne⟩ := h
    refine (grows_enter hfile false).trans (grows_enter ?_ false)
    rw [enter_of_ne hne.symm, hfile']

end Flags

namespace Proc

variable {p q : Proc} {k : SockInfo} {fd : RawFd}

/-- What a listening method returns is not the registry's. -/
theorem WF.returned_listenWith (hp : p.WF) {c : Creation SockInfo} {adopt : Bool} {o : Origin}
    (hfree : c.isFree p.table = true) (h : p.listenWith k c adopt = some (.ok (o, fd), q)) :
    fd ∉ q.registered := by
  rcases listenWith_eq_some h with
    ⟨fd', q', hinh, ⟨_, hres, rfl⟩ | ⟨_, hres, _⟩⟩ |
    ⟨q', hinh, ⟨msg, _, hres, _⟩ | ⟨fd', file, info, rfl, ⟨hadd, hres⟩ | ⟨e, _, hres, _⟩⟩⟩ <;>
  cases hres
  · exact (hp.inherit hinh).2.1 fd rfl
  · obtain ⟨hq', -, hsub⟩ := hp.inherit hinh
    have hfd : fd ∉ q'.registered := by
      intro hmem
      exact hp.ne_of_free (by simpa [Creation.isFree] using hfree) ((hsub rfl).subset hmem) rfl
    exact ((hq'.openFd fd ⟨file, true⟩).add hadd).2 fd hfd (by simp [Proc.openFd])

/-- What is open stays open when a number is opened. -/
theorem isSome_fileOf_openFd (h : (p.fileOf fd).isSome = true) (fd' : RawFd) (d : Desc) :
    ((p.openFd fd' d).fileOf fd).isSome = true := by
  by_cases hfd : fd = fd'
  · subst hfd
    rw [fileOf_openFd_self, Option.isSome_some]
  · rw [fileOf_openFd_of_ne hfd, h]

/-- The ends of a new pair: they are open, and so is what was open before. -/
theorem isSome_fileOf_pair (p : Proc) (d d' : Desc) {toChild childs : RawFd}
    (hne : childs ≠ toChild) (h : fd = toChild ∨ (p.fileOf fd).isSome = true) :
    (((p.openFd toChild d).openFd childs d').fileOf fd).isSome = true := by
  rcases h with rfl | h
  · rw [fileOf_openFd_of_ne hne.symm, fileOf_openFd_self, Option.isSome_some]
  · exact isSome_fileOf_openFd (isSome_fileOf_openFd h toChild d) childs d'

/-- An open number that is not the registry's stays so when another number is registered,
and that one closed. -/
theorem WF.add_closeFdQuiet (hp : p.WF) {item : ListenerInfo} (h : p.add item = .ok q)
    (hne : fd ≠ item.fd) (hnot : fd ∉ p.registered) (hopen : (p.fileOf fd).isSome = true) :
    fd ∉ (q.closeFdQuiet item.fd).registered ∧
      ((q.closeFdQuiet item.fd).fileOf fd).isSome = true := by
  constructor
  · exact (hp.add h).2 fd hnot (by simpa [fileOf] using hopen)
  · rw [fileOf_closeFdQuiet_of_ne hne, Systemd.fileOf_add h (Option.isSome_iff_ne_none.mp hopen)]
    exact hopen

/-- **What `unix_datagram_pair` returns**: up to two open numbers, which are distinct and not
the registry's. -/
theorem WF.returned_unixDatagramPair (hp : p.WF) {name : String} {c : Pair}
    {x : Option RawFd} {y : Except ListenError RawFd} (hfree : c.isFree p.table = true)
    (h : p.unixDatagramPair name c = some ((x, y), q)) :
    (∀ fd, x = some fd → fd ∉ q.registered ∧ (q.fileOf fd).isSome = true) ∧
      ∀ fd, y = .ok fd → fd ∉ q.registered ∧ (q.fileOf fd).isSome = true ∧ x ≠ some fd := by
  obtain ⟨r, q', htake, hor⟩ := unixDatagramPair_eq_some h
  obtain ⟨hq', hsub, hr⟩ := hp.take htake
  have hopen : ∀ fd, r = some fd → (q'.fileOf fd).isSome = true := by
    intro fd hfd
    simpa [fileOf] using (hr fd hfd).2
  rcases hor with ⟨msg, -, hres, rfl⟩ | ⟨toChild, childs, file, file', rfl, hor⟩
  · cases hres
    exact ⟨fun fd hfd => ⟨(hr fd hfd).1, hopen fd hfd⟩, Except.forall_ok_of_error⟩
  · simp only [Pair.isFree, Bool.decide_and, Bool.and_eq_true, decide_eq_true_eq] at hfree
    obtain ⟨htoChild, hchilds, hne⟩ := hfree
    -- what was taken is open, and so none of the new numbers
    have htaken : ∀ fd n, r = some fd → p.table n = none → fd ≠ n := by
      rintro fd n hfd hn rfl
      have hsome := (hr fd hfd).2
      rw [take_free htake hn] at hsome
      cases hsome
    have hmade : ∀ fd, fd = toChild ∨ (q'.fileOf fd).isSome = true →
        (((q'.openFd toChild ⟨file, true⟩).openFd childs ⟨file', true⟩).fileOf fd).isSome = true :=
      fun _ => isSome_fileOf_pair q' ⟨file, true⟩ ⟨file', true⟩ hne
    rcases hor with ⟨q₁, hadd, hres, rfl⟩ | ⟨e, -, hres, rfl⟩
    · cases hres
      have hwf := (hq'.openFd toChild ⟨file, true⟩).openFd childs ⟨file', true⟩
      constructor
      · intro fd hfd
        exact hwf.add_closeFdQuiet hadd (htaken fd childs hfd hchilds) (hr fd hfd).1
          (hmade fd (.inr (hopen fd hfd)))
      · rintro _ ⟨⟩
        have hnot : toChild ∉ q'.registered :=
          fun hmem => hp.ne_of_free htoChild (hsub.subset hmem) rfl
        obtain ⟨hreg, hfile⟩ :=
          hwf.add_closeFdQuiet hadd hne.symm hnot (hmade toChild (.inl rfl))
        exact ⟨hreg, hfile, fun hfd => htaken toChild toChild hfd htoChild rfl⟩
    · cases hres
      refine ⟨fun fd hfd => ⟨(hr fd hfd).1, ?_⟩, Except.forall_ok_of_error⟩
      rw [fileOf_closeFdQuiet_of_ne (htaken fd toChild hfd htoChild),
        fileOf_closeFdQuiet_of_ne (htaken fd childs hfd hchilds)]
      exact hmade fd (.inr (hopen fd hfd))

end Proc

/-! ## The invariant -/

namespace Member

variable {report : Report} {m m' : Member} {flags flags' flags'' : Flags} {fd : RawFd}
  {fds : List RawFd}

/-- The registry is well-formed, the list taken for a child is an initial part of the entries
in use, and all entries for seqpacket sockets refer to non-blocking files. -/
structure Good (m : Member) (flags : Flags) : Prop where
  wf : m.proc.WF
  snapshotUsed : m.snapshot <+: m.proc.usedFds
  nonblocking : ∀ li ∈ m.proc.inheritedFds ++ m.proc.usedFds, li.sockInfo.isSeqpacket = true →
    ∀ file, m.proc.fileOf li.fd = some file → flags file = some true

/-- The number refers to a non-blocking file. -/
def Ready (m : Member) (flags : Flags) (fd : RawFd) : Prop :=
  ∃ file, m.proc.fileOf fd = some file ∧ flags file = some true

/-- Only the registry, the numbers and the list for a child matter. -/
theorem Good.congr (hm : m.Good flags) (hproc : m'.proc = m.proc)
    (hsnapshot : m'.snapshot = m.snapshot) : m'.Good flags := by
  refine ⟨?_, ?_, ?_⟩
  · rw [hproc]
    exact hm.wf
  · rw [hproc, hsnapshot]
    exact hm.snapshotUsed
  · rw [hproc]
    exact hm.nonblocking

/-- Other processes do no harm. -/
theorem Good.grows (hm : m.Good flags) (hg : flags.Grows flags') : m.Good flags' :=
  ⟨hm.wf, hm.snapshotUsed,
    fun li hli hk file hfile => hg file (hm.nonblocking li hli hk file hfile)⟩

/-- **What has to be shown of an operation**: the registry evolves and stays well-formed, no
file becomes blocking, and new entries for seqpacket sockets refer to non-blocking files. -/
theorem Good.evolve (hm : m.Good flags) (hwf : m'.proc.WF) (hsnapshot : m'.snapshot = m.snapshot)
    (hev : m.proc.Evolves m'.proc) (hg : flags.Grows flags')
    (hnew : ∀ li ∈ m'.proc.usedFds, li ∈ m.proc.usedFds ∨ (li.sockInfo.isSeqpacket = true →
      ∀ file, m'.proc.fileOf li.fd = some file → flags' file = some true)) :
    m'.Good flags' := by
  refine ⟨hwf, ?_, fun li hli hk file hfile => ?_⟩
  · rw [hsnapshot]
    exact hm.snapshotUsed.trans hev.used
  · rcases List.mem_append.mp hli with hli | hli
    · obtain ⟨hold, hsame⟩ := hev.inherited li hli
      rw [hsame] at hfile
      exact hg file (hm.nonblocking li (List.mem_append_left _ hold) hk file hfile)
    · rcases hnew li hli with hold | hnew
      · rw [hev.usedFile li hold] at hfile
        exact hg file (hm.nonblocking li (List.mem_append_right _ hold) hk file hfile)
      · exact hnew hk file hfile

/-- Operations that leave the entries in use alone. -/
theorem Good.evolve_same (hm : m.Good flags) (hwf : m'.proc.WF)
    (hsnapshot : m'.snapshot = m.snapshot) (hev : m.proc.Evolves m'.proc)
    (hg : flags.Grows flags') (hused : m'.proc.usedFds = m.proc.usedFds) : m'.Good flags' :=
  hm.evolve hwf hsnapshot hev hg fun _ hli => .inl (hused ▸ hli)

/-- Operations that register one more number. -/
theorem Good.evolve_added (hm : m.Good flags) (hwf : m'.proc.WF)
    (hsnapshot : m'.snapshot = m.snapshot) (hev : m.proc.Evolves m'.proc)
    (hg : flags.Grows flags') {n : RawFd} {k : SockInfo} {file : ℕ}
    (hused : m'.proc.usedFds = m.proc.usedFds ++ [⟨n, k⟩]) (hn : m'.proc.fileOf n = some file)
    (hk : k.isSeqpacket = true → flags' file = some true) : m'.Good flags' := by
  refine hm.evolve hwf hsnapshot hev hg fun li hli => ?_
  rw [hused, List.mem_append, List.mem_singleton] at hli
  rcases hli with hli | rfl
  · exact .inl hli
  · refine .inr fun hseq file' hfile' => ?_
    cases hn.symm.trans hfile'
    exact hk hseq

/-- Closing a number that is not the registry's. -/
theorem Good.closeFdQuiet (hm : m.Good flags) (hfd : fd ∉ m.proc.registered) :
    (m.withProc (m.proc.closeFdQuiet fd)).Good flags :=
  hm.evolve_same (hm.wf.closeFdQuiet hfd) rfl (Proc.evolves_closeFdQuiet hfd) (.refl _) rfl

/-- **A listening method of `Ecdysis`.**  What it returns is open and not the registry's; and
a seqpacket socket, claimed or new, is non-blocking. -/
theorem Good.listen (hm : m.Good flags) {r : Request} {flag : Bool}
    {res : Except ListenError RawFd} (hfree : r.creation.isFree m.proc.table = true)
    (hnew : r.creation.isNew flags = true) (hflag : r.isSeqpacket = true → flag = true)
    (h : m.listen flags r flag = some (res, m', flags')) :
    m'.Good flags' ∧ flags.Grows flags' ∧ ∀ fd, res = .ok fd →
      fd ∉ m'.proc.registered ∧ (m'.proc.fileOf fd).isSome = true ∧
      (r.isSeqpacket = true → m'.Ready flags' fd) := by
  obtain ⟨⟨res', q⟩, hq, heq⟩ := Option.map_eq_some_iff.mp h
  cases heq
  rw [Proc.listen_eq] at hq
  have hnot : ∀ fd file info, r.creation = .created fd file info → fd ∉ m.proc.registered := by
    intro fd file info hc hmem
    rw [hc] at hfree
    exact hm.wf.ne_of_free (by simpa [Creation.isFree] using hfree) hmem rfl
  have hg : flags.Grows (if m.proc.claims r.key then flags else flags.created flag r.creation) := by
    split
    · exact .refl _
    · exact Flags.grows_created hnew flag
  have hwf := hm.wf.listenWith hnot hq
  have hev := hm.wf.evolves_listenWith hnot hq
  have hreturned : ∀ fd, res'.map Prod.snd = .ok fd → fd ∉ q.registered := by
    intro fd hfd
    cases res' with
    | error e => cases hfd
    | ok x =>
      cases hfd
      exact hm.wf.returned_listenWith hfree hq
  rcases Proc.listenWith_spec hq with
    ⟨hclaims, li, hli, n, file, hkey, hfile, hused, hn, hres⟩ | ⟨_, hused, e, rfl⟩ |
    ⟨hclaims, fd, file, info, n, hc, rfl, hused, hn, hfd⟩
  · rw [if_pos hclaims] at hg ⊢
    -- the entry it was claimed from is one for a seqpacket socket too
    have hold : r.isSeqpacket = true → flags file = some true := by
      intro hseq
      refine hm.nonblocking li (List.mem_append_left _ hli) ?_ file hfile
      rw [SockInfo.isSeqpacket_of_beq hkey, Request.isSeqpacket_key, hseq]
    rw [← Request.isSeqpacket_key] at hold ⊢
    refine ⟨hm.evolve_added hwf rfl hev hg hused hn hold, hg, fun fd hfd => ?_⟩
    cases res' with
    | error e => cases hfd
    | ok x =>
      obtain ⟨rfl, hopen⟩ := hres x rfl
      cases hfd
      refine ⟨hreturned _ rfl, ?_, fun hseq => ⟨file, hopen, hold hseq⟩⟩
      show (q.fileOf li.fd).isSome = true
      rw [hopen, Option.isSome_some]
  · refine ⟨hm.evolve_same hwf rfl hev hg hused, hg, fun fd hfd => ?_⟩
    cases hfd
  · have hclaims' : ¬m.proc.claims r.key = true := by simp [hclaims]
    rw [if_neg hclaims'] at hg ⊢
    have hentered : flags.created flag r.creation file = some flag := by
      rw [hc]
      exact Flags.enter_self _ _ _
    have hseq : r.isSeqpacket = true → flags.created flag r.creation file = some true := by
      intro hr
      rw [hentered, hflag hr]
    rw [← Request.isSeqpacket_created hc] at hseq ⊢
    refine ⟨hm.evolve_added hwf rfl hev hg hused hn hseq, hg, ?_⟩
    rintro _ ⟨⟩
    refine ⟨hreturned _ rfl, ?_, fun hr => ⟨file, hfd, hseq hr⟩⟩
    show (q.fileOf fd).isSome = true
    rw [hfd, Option.isSome_some]

/-- What `fromStd` does to other numbers: nothing. -/
theorem fileOf_fromStd {res : Except ListenError RawFd} {err : Option String} {fd' : RawFd}
    (h : ∀ fd, res = .ok fd → fd' ≠ fd) :
    (fromStd res m flags err).2.1.proc.fileOf fd' = m.proc.fileOf fd' := by
  cases res with
  | error e => rfl
  | ok fd =>
    cases err with
    | none => rfl
    | some msg => exact Proc.fileOf_closeFdQuiet_of_ne (h fd rfl)

theorem registered_mapFromStd (x : Option RawFd) (m : Member) (flags : Flags)
    (err : Option String) :
    (mapFromStd x m flags err).2.1.proc.registered = m.proc.registered := by
  cases x with
  | none => rfl
  | some fd => cases err <;> rfl

/-- **`set_nonblocking` and `from_std`** hand out a non-blocking socket, or close it. -/
theorem Good.fromStd (hm : m.Good flags) {res : Except ListenError RawFd} (err : Option String)
    (hres : ∀ fd, res = .ok fd → fd ∉ m.proc.registered ∧ (m.proc.fileOf fd).isSome = true) :
    (Member.fromStd res m flags err).2.1.Good (Member.fromStd res m flags err).2.2 ∧
      flags.Grows (Member.fromStd res m flags err).2.2 ∧
      ∀ fd ∈ (Member.fromStd res m flags err).1, res = .ok fd ∧
        (Member.fromStd res m flags err).2.1.Ready (Member.fromStd res m flags err).2.2 fd := by
  cases res with
  | error e => exact ⟨hm, .refl _, List.forall_mem_nil _⟩
  | ok fd =>
    obtain ⟨hfd, hopen⟩ := hres fd rfl
    have hg := flags.grows_setNonblocking m.proc fd
    cases err with
    | none =>
      refine ⟨hm.grows hg, hg, fun fd' hfd' => ?_⟩
      obtain rfl := List.mem_singleton.mp hfd'
      obtain ⟨file, hfile⟩ := Option.isSome_iff_exists.mp hopen
      exact ⟨rfl, file, hfile, flags.setNonblocking_of_fileOf hfile⟩
    | some msg => exact ⟨(hm.closeFdQuiet hfd).grows hg, hg, List.forall_mem_nil _⟩

/-- The same for the end to the parent, which leaves other numbers alone. -/
theorem Good.mapFromStd (hm : m.Good flags) {x : Option RawFd} (err : Option String)
    (hx : ∀ fd, x = some fd → fd ∉ m.proc.registered ∧ (m.proc.fileOf fd).isSome = true) :
    (Member.mapFromStd x m flags err).2.1.Good (Member.mapFromStd x m flags err).2.2 ∧
      flags.Grows (Member.mapFromStd x m flags err).2.2 ∧
      (∀ fd ∈ (Member.mapFromStd x m flags err).1, x = some fd ∧
        (Member.mapFromStd x m flags err).2.1.Ready (Member.mapFromStd x m flags err).2.2 fd) ∧
      ∀ fd, x ≠ some fd →
        (Member.mapFromStd x m flags err).2.1.proc.fileOf fd = m.proc.fileOf fd := by
  cases x with
  | none => exact ⟨hm, .refl _, List.forall_mem_nil _, fun _ _ => rfl⟩
  | some fd =>
    have hres : ∀ fd', (Except.ok fd : Except ListenError RawFd) = .ok fd' →
        fd' ∉ m.proc.registered ∧ (m.proc.fileOf fd').isSome = true := by
      rintro _ ⟨⟩
      exact hx fd rfl
    obtain ⟨hgood, hg, hready⟩ := hm.fromStd err hres
    refine ⟨hgood, hg, fun fd' hfd' => ?_, fun fd' hne => fileOf_fromStd ?_⟩
    · obtain ⟨heq, hr⟩ := hready fd' hfd'
      cases heq
      exact ⟨rfl, hr⟩
    · rintro _ ⟨⟩ rfl
      exact hne rfl

/-- **The methods that hand out one socket.** -/
theorem Good.tokio (hm : m.Good flags) {t : TokioMethod}
    (hallows : m.allows flags (.tokio t) = true) (h : m.tokio flags t = some (fds, m', flags')) :
    m'.Good flags' ∧ flags.Grows flags' ∧ ∀ fd ∈ fds, m'.Ready flags' fd := by
  simp only [allows, Bool.and_eq_true] at hallows
  obtain ⟨⟨res, m₁, flags₁⟩, h₁, heq⟩ := Option.map_eq_some_iff.mp h
  have hflag : t.request.isSeqpacket = true → t.flag = true := by
    cases t <;> simp [TokioMethod.request, Request.isSeqpacket, TokioMethod.flag]
  obtain ⟨hgood, hg, hres⟩ := hm.listen hallows.1 hallows.2 hflag h₁
  simp only at heq
  split at heq
  -- the seqpacket method returns what it has
  · rename_i hseq
    cases heq
    refine ⟨hgood, hg, fun fd hfd => ?_⟩
    cases res with
    | error e => cases hfd
    | ok fd' =>
      obtain rfl := List.mem_singleton.mp hfd
      exact (hres fd rfl).2.2 hseq
  · obtain ⟨hgood', hg', hready⟩ :=
      hgood.fromStd t.err fun fd hfd => ⟨(hres fd hfd).1, (hres fd hfd).2.1⟩
    rw [heq] at hgood' hg' hready
    exact ⟨hgood', hg.trans hg', fun fd hfd => (hready fd hfd).2⟩

/-- `Ecdysis::unix_datagram_pair`. -/
theorem Good.datagramPair (hm : m.Good flags) {name : String} {c : Pair} {x : Option RawFd}
    {y : Except ListenError RawFd} (hfree : c.isFree m.proc.table = true)
    (hnew : c.isNew flags = true) (h : m.datagramPair flags name c = some ((x, y), m', flags')) :
    m'.Good flags' ∧ flags.Grows flags' ∧
      (∀ fd, x = some fd → fd ∉ m'.proc.registered ∧ (m'.proc.fileOf fd).isSome = true) ∧
      ∀ fd, y = .ok fd →
        fd ∉ m'.proc.registered ∧ (m'.proc.fileOf fd).isSome = true ∧ x ≠ some fd := by
  obtain ⟨⟨res, q⟩, hq, heq⟩ := Option.map_eq_some_iff.mp h
  cases heq
  obtain ⟨hx, hy⟩ := hm.wf.returned_unixDatagramPair hfree hq
  have hnot := hm.wf.not_registered_of_isFree hfree
  have hwf := hm.wf.unixDatagramPair hnot hq
  have hev := hm.wf.evolves_unixDatagramPair hnot hq
  have hg := Flags.grows_paired hnew
  refine ⟨?_, hg, hx, hy⟩
  rcases Proc.usedFds_unixDatagramPair hq with ⟨_, n, _, hused⟩ | ⟨_, hused⟩
  · refine hm.evolve hwf rfl hev hg fun li hli => ?_
    have hli' : li ∈ m.proc.usedFds ++ [⟨n, .unboundUnixDatagram name⟩] := hused ▸ hli
    rcases List.mem_append.mp hli' with hold | hnew
    · exact .inl hold
    · obtain rfl := List.mem_singleton.mp hnew
      exact .inr fun hk => absurd hk Bool.false_ne_true
  · exact hm.evolve_same hwf rfl hev hg hused

/-- **`TokioEcdysis::unix_datagram_pair`** hands out up to two non-blocking sockets. -/
theorem Good.tokioDatagramPair (hm : m.Good flags) {name : String} {c : Pair}
    {errToParent errToChild : Option String}
    (hallows : m.allows flags (.tokioDatagramPair name c errToParent errToChild) = true)
    (h : m.tokioDatagramPair flags name c errToParent errToChild = some (fds, m', flags')) :
    m'.Good flags' ∧ flags.Grows flags' ∧ ∀ fd ∈ fds, m'.Ready flags' fd := by
  simp only [allows, Bool.and_eq_true] at hallows
  obtain ⟨⟨⟨x, y⟩, m₁, flags₁⟩, h₁, heq⟩ := Option.map_eq_some_iff.mp h
  obtain ⟨hgood, hg, hx, hy⟩ := hm.datagramPair hallows.1 hallows.2 h₁
  obtain ⟨hgood₂, hg₂, hready₂, hfile₂⟩ := hgood.mapFromStd errToParent hx
  -- the end to the child is another number
  have hy₂ : ∀ fd, y = .ok fd →
      fd ∉ (Member.mapFromStd x m₁ flags₁ errToParent).2.1.proc.registered ∧
      ((Member.mapFromStd x m₁ flags₁ errToParent).2.1.proc.fileOf fd).isSome = true := by
    intro fd hfd
    obtain ⟨hnot, hopen, hne⟩ := hy fd hfd
    rw [registered_mapFromStd, hfile₂ fd hne]
    exact ⟨hnot, hopen⟩
  obtain ⟨hgood₃, hg₃, hready₃⟩ := hgood₂.fromStd errToChild hy₂
  cases heq
  refine ⟨hgood₃, (hg.trans hg₂).trans hg₃, fun fd hfd => ?_⟩
  rcases List.mem_append.mp hfd with hfd | hfd
  · obtain ⟨hxfd, file, hfile, hflag⟩ := hready₂ fd hfd
    refine ⟨file, ?_, hg₃ file hflag⟩
    rw [fileOf_fromStd, hfile]
    rintro fd' hfd' rfl
    exact (hy fd hfd').2.2 hxfd
  · exact (hready₃ fd hfd).2

/-- `inherit`: what it returns is open and not the registry's. -/
theorem Good.inherit (hm : m.Good flags) {k : SockInfo} {x : Option RawFd} {q : Proc}
    (h : m.proc.inherit k = some (x, q)) :
    (m.withProc q).Good flags ∧
      ∀ fd, x = some fd → fd ∉ q.registered ∧ (q.fileOf fd).isSome = true := by
  obtain ⟨hwf, hnot, -⟩ := hm.wf.inherit h
  have hev := hm.wf.evolves_inherit h
  cases x with
  | none =>
    obtain ⟨-, hused⟩ := Proc.usedFds_of_inherit_none h
    exact ⟨hm.evolve_same hwf rfl hev (.refl _) hused, nofun⟩
  | some fd =>
    obtain ⟨-, li, hli, n, file, hkey, rfl, -, hfile, hused, hn, hfd⟩ := Proc.claimed_of_inherit h
    refine ⟨hm.evolve_added hwf rfl hev (.refl _) hused hn fun hk => ?_, ?_⟩
    · refine hm.nonblocking li (List.mem_append_left _ hli) ?_ file hfile
      rw [SockInfo.isSeqpacket_of_beq hkey, hk]
    · rintro _ ⟨⟩
      exact ⟨hnot li.fd rfl, by rw [hfd, Option.isSome_some]⟩

/-- **`systemd_sock_of_proto`**, in the first process and in a child, with the flag of what it
returns set. -/
theorem Good.systemdSockOfProto (hm : m.Good flags) {c : SystemdCall} {res : SystemdResult}
    {s : Systemd} (hspares : ∀ fd, m.sys.find c.name = some fd → fd ∉ m.proc.registered)
    (h : m.sys.systemdSockOfProto report c = some (res, s)) :
    Good { m with sys := s } (flags.setReturned s.proc res) ∧
      ∀ fd, res = .ok fd → fd ∉ s.proc.registered ∧ (s.proc.fileOf fd).isSome = true := by
  cases hchild : m.sys.child with
  | false =>
    rcases Systemd.systemdSockOfProto_eq_some hchild h with ⟨e, rfl, rfl⟩ |
      ⟨fd, e, hfind, rfl, rfl⟩ | ⟨fd, actual, p, hfind, hinfo, -, hadd, rfl, rfl⟩
    · exact ⟨hm, Except.forall_ok_of_error⟩
    · exact ⟨(hm.closeFdQuiet (hspares fd hfind)).congr rfl rfl, Except.forall_ok_of_error⟩
    · obtain ⟨hwf, hkeep⟩ := hm.wf.add hadd
      have hev := hm.wf.evolves_add hadd
      have hopen : (m.proc.fileOf fd).isSome = true := by
        unfold Systemd.info at hinfo
        split at hinfo
        · cases hinfo
        · rename_i file hfile
          rw [proc, hfile, Option.isSome_some]
      have hkept : p.fileOf fd = m.proc.fileOf fd :=
        Systemd.fileOf_add hadd (Option.isSome_iff_ne_none.mp hopen)
      obtain ⟨file, hfile⟩ := Option.isSome_iff_exists.mp hopen
      have hset : flags.setNonblocking p fd file = some true :=
        flags.setNonblocking_of_fileOf (hkept.trans hfile)
      obtain ⟨n, d, hd, -, -, -, hp⟩ := Proc.add_eq_ok hadd
      have hfile' : d.file = file := by simpa [proc, Proc.fileOf, hd] using hfile
      have hn : p.fileOf n = some file := by simp [hp, Proc.fileOf, Proc.openFd, hfile']
      have hgood : (m.withProc p).Good (flags.setNonblocking p fd) :=
        hm.evolve_added hwf rfl hev (flags.grows_setNonblocking p fd)
          (by rw [withProc, proc, hp]; rfl) hn fun _ => hset
      refine ⟨hgood.congr rfl rfl, ?_⟩
      rintro _ ⟨⟩
      refine ⟨hkeep fd (hspares fd hfind) (by simpa [Proc.fileOf] using hopen), ?_⟩
      show (p.fileOf fd).isSome = true
      rw [hkept, hopen]
  | true =>
    simp only [Systemd.systemdSockOfProto, hchild, if_true,
      Systemd.readSockFromRegistryOfProto] at h
    obtain ⟨⟨x, q⟩, hinh, heq⟩ := Option.map_eq_some_iff.mp h
    obtain ⟨hgood, hx⟩ := hm.inherit hinh
    cases x with
    | none =>
      cases heq
      exact ⟨hgood.congr rfl rfl, Except.forall_ok_of_error⟩
    | some fd =>
      simp only at heq
      split at heq
      · cases heq
        exact ⟨(hgood.closeFdQuiet (hx fd rfl).1).congr rfl rfl, Except.forall_ok_of_error⟩
      · cases heq
        refine ⟨(hgood.grows (flags.grows_setNonblocking q fd)).congr rfl rfl, ?_⟩
        rintro _ ⟨⟩
        exact hx fd rfl

/-- **The `systemd_*` methods.** -/
theorem Good.systemd (hm : m.Good flags) {c : SystemdCall}
    (hspares : ∀ fd, m.sys.find c.name = some fd → fd ∉ m.proc.registered)
    (h : m.systemd report flags c = some (fds, m', flags')) :
    m'.Good flags' ∧ flags.Grows flags' ∧ ∀ fd ∈ fds, m'.Ready flags' fd := by
  obtain ⟨⟨res, s⟩, hs, heq⟩ := Option.map_eq_some_iff.mp h
  obtain ⟨hgood, hres⟩ := hm.systemdSockOfProto hspares hs
  cases res with
  | error e =>
    cases heq
    exact ⟨hgood, .refl _, List.forall_mem_nil _⟩
  | ok fd =>
    obtain ⟨hnot, hopen⟩ := hres fd rfl
    have hg := flags.grows_setNonblocking s.proc fd
    simp only [Systemd.converted] at heq
    cases hconv : c.convert with
    | none =>
      rw [hconv] at heq
      cases heq
      refine ⟨hgood, hg, fun fd' hfd' => ?_⟩
      obtain rfl := List.mem_singleton.mp hfd'
      obtain ⟨file, hfile⟩ := Option.isSome_iff_exists.mp hopen
      exact ⟨file, hfile, flags.setNonblocking_of_fileOf hfile⟩
    | some msg =>
      rw [hconv] at heq
      cases heq
      exact ⟨(hgood.closeFdQuiet hnot).congr rfl rfl, hg, List.forall_mem_nil _⟩

/-- `read_systemd_sockets` changes no file and not the registry. -/
theorem Good.readSystemdSockets (hm : m.Good flags) {res : Except SystemdSocketsReadError Unit}
    {s : Systemd} (h : m.sys.readSystemdSockets = some (res, s)) :
    Good { m with sys := s } flags := by
  rcases Systemd.readSystemdSockets_eq_some h with rfl | ⟨-, map, p, rfl, hnames⟩
  · exact hm
  · obtain ⟨hfile, ⟨hinh, hused⟩, -⟩ := SystemdSockets.readNames_spec hnames
    have hreg : p.registered = m.proc.registered := by
      rw [Proc.registered, hinh, hused]
      rfl
    have hwf : p.WF := by
      refine ⟨hreg ▸ hm.wf.nodup, fun fd hfd => ?_⟩
      have hopen := hm.wf.isOpen fd (hreg ▸ hfd)
      have hsame := congrArg Option.isSome (hfile fd)
      simp only [Proc.fileOf, Option.isSome_map] at hsame
      exact hsame.trans hopen
    have hev : m.proc.Evolves p := .of_fileOf hinh hused fun fd _ => hfile fd
    have hgood : (m.withProc p).Good flags := hm.evolve_same hwf rfl hev (.refl _) hused
    exact hgood.congr rfl rfl

/-- **One step of a process**, if it spares the registry: the invariant holds again, no file
becomes blocking, and what is handed to the runtime is non-blocking. -/
theorem Good.act (hm : m.Good flags) {a : Action} (hallows : m.allows flags a = true)
    (hspares : m.spares a = true) (h : m.act report flags a = some (fds, m', flags')) :
    m'.Good flags' ∧ flags.Grows flags' ∧ ∀ fd ∈ fds, m'.Ready flags' fd := by
  cases a with
  | std r flag =>
    obtain ⟨⟨res, m₁, flags₁⟩, h₁, heq⟩ := Option.map_eq_some_iff.mp h
    cases heq
    simp only [allows, Bool.and_eq_true, Bool.not_eq_true'] at hallows
    have hflag : r.isSeqpacket = true → flag = true := by
      intro hseq
      rw [hallows.1.1] at hseq
      cases hseq
    obtain ⟨hgood, hg, -⟩ := hm.listen hallows.1.2 hallows.2 hflag h₁
    exact ⟨hgood, hg, List.forall_mem_nil _⟩
  | stdDatagramPair name c =>
    obtain ⟨⟨⟨x, y⟩, m₁, flags₁⟩, h₁, heq⟩ := Option.map_eq_some_iff.mp h
    cases heq
    simp only [allows, Bool.and_eq_true] at hallows
    obtain ⟨hgood, hg, -⟩ := hm.datagramPair hallows.1 hallows.2 h₁
    exact ⟨hgood, hg, List.forall_mem_nil _⟩
  | tokio t => exact hm.tokio hallows h
  | tokioDatagramPair name c errToParent errToChild => exact hm.tokioDatagramPair hallows h
  | readSystemdSockets =>
    obtain ⟨⟨res, s⟩, hs, heq⟩ := Option.map_eq_some_iff.mp h
    cases heq
    exact ⟨hm.readSystemdSockets hs, .refl _, List.forall_mem_nil _⟩
  | systemd t =>
    refine hm.systemd (fun fd hfd => ?_) h
    simpa [spares, hfd] using hspares
  | openFd fd d flag =>
    cases h
    have hfree : m.proc.table fd = none := by simpa [allows] using hallows
    have hnot : fd ∉ m.proc.registered := fun hmem => hm.wf.ne_of_free hfree hmem rfl
    have hg : flags.Grows (if (flags d.file).isNone then flags.enter d.file flag else flags) := by
      split
      · rename_i hnone
        exact Flags.grows_enter (Option.isNone_iff_eq_none.mp hnone) flag
      · exact .refl _
    exact ⟨hm.evolve_same (hm.wf.openFd fd d) rfl (Proc.evolves_openFd hnot) hg rfl, hg,
      List.forall_mem_nil _⟩
  | closeFd fd =>
    cases h
    exact ⟨hm.closeFdQuiet (by simpa [spares] using hspares), .refl _, List.forall_mem_nil _⟩
  | snapshot =>
    cases h
    exact ⟨⟨hm.wf, List.prefix_refl _, hm.nonblocking⟩, .refl _, List.forall_mem_nil _⟩
  | ready =>
    cases h
    exact ⟨hm.evolve_same hm.wf.closeInherited rfl hm.wf.evolves_closeInherited (.refl _) rfl,
      .refl _, List.forall_mem_nil _⟩

/-- A child starts with what its parent has registered. -/
theorem Good.child (hm : m.Good flags) {c : Proc} (h : m.proc.spawnChild m.snapshot = some c) :
    (m.child c).Good flags := by
  obtain ⟨hinh, hused, -, hfile⟩ := Proc.spawnChild_eq_some h
  refine ⟨hm.wf.spawnChild hm.snapshotUsed h, List.nil_prefix, fun li hli hk file hf => ?_⟩
  have hli' : li ∈ c.inheritedFds ++ c.usedFds := hli
  rw [hinh, hused, List.append_nil] at hli'
  obtain ⟨li₀, hli₀, rfl⟩ := List.mem_map.mp hli'
  refine hm.nonblocking li₀ (List.mem_append_right _ (hm.snapshotUsed.subset hli₀)) ?_ file ?_
  · rw [← SockInfo.isSeqpacket_onWire]
    exact hk
  · rw [← hfile li₀ hli₀]
    exact hf

end Member

/-! ## Runs -/

namespace Fleet

variable {report : Report} {s s' : Fleet} {e : Event} {fds : List RawFd}

/-- All processes are good. -/
def Good (s : Fleet) : Prop := ∀ m ∈ s.members, m.Good s.flags

theorem good_of_init (h : (fleet report).Init s) : s.Good := by
  obtain ⟨m, hmembers, -, hsnapshot, hinh, hused, -⟩ := h
  intro m' hm'
  rw [hmembers, List.mem_singleton] at hm'
  subst hm'
  have hreg : m'.proc.registered = [] := by rw [Proc.registered, hinh, hused]; rfl
  refine ⟨⟨by rw [hreg]; exact List.nodup_nil, by simp [hreg]⟩, ?_, ?_⟩
  · rw [hsnapshot]
    exact List.nil_prefix
  · simp [hinh, hused]

/-- **One event**, if it spares the registry of its process. -/
theorem Good.handle (hs : s.Good) (hspares : s.spares e = true)
    (h : s.handle report e = some (fds, s')) : s'.Good ∧ s'.Nonblocking e fds := by
  cases e with
  | act i a =>
    obtain ⟨m, hm, h⟩ := Option.bind_eq_some_iff.mp h
    rw [Option.ite_none_right_eq_some] at h
    obtain ⟨hallows, h⟩ := h
    obtain ⟨⟨fds', m', flags'⟩, hact, heq⟩ := Option.map_eq_some_iff.mp h
    cases heq
    have hgood := hs m (List.mem_of_getElem? hm)
    have hspares' : m.spares a = true := by simpa [spares, hm] using hspares
    obtain ⟨hgood', hg, hready⟩ := hgood.act hallows hspares' hact
    refine ⟨fun m₁ hm₁ => ?_, fun fd hfd => ?_⟩
    · rcases List.mem_or_eq_of_mem_set hm₁ with hold | rfl
      · exact (hs m₁ hold).grows hg
      · exact hgood'
    · obtain ⟨file, hfile, hflag⟩ := hready fd hfd
      have hlt : i < s.members.length := (List.getElem?_eq_some_iff.mp hm).1
      exact ⟨m', file, by simp [hlt], hfile, hflag⟩
  | spawn i =>
    obtain ⟨m, hm, h⟩ := Option.bind_eq_some_iff.mp h
    obtain ⟨c, hc, heq⟩ := Option.map_eq_some_iff.mp h
    cases heq
    refine ⟨fun m₁ hm₁ => ?_, rfl⟩
    rcases List.mem_append.mp hm₁ with hold | hnew
    · exact hs m₁ hold
    · rw [List.mem_singleton.mp hnew]
      exact (hs m (List.mem_of_getElem? hm)).child hc

/-- **Sockets for the runtime are non-blocking.**  In every run of every fleet, whatever its
processes register, claim, hand on and drop, and whatever systemd passed to the first: as long
as the registries are spared, each method that succeeds hands out sockets whose open files
have `O_NONBLOCK`. -/
theorem nonblocking_of_spared
    (hs : (fleet report).ReachableVia (fun s e => s.spares e = true) s)
    (hspares : s.spares e = true) (h : s.handle report e = some (fds, s')) :
    s'.Nonblocking e fds := by
  have hgood : s.Good := by
    refine hs.invariant (fun s hs => good_of_init hs) fun s e s' _ hs hspares hstep => ?_
    obtain ⟨⟨fds, s''⟩, hhandle, rfl⟩ := Option.map_eq_some_iff.mp hstep
    exact (hs.handle hspares hhandle).1
  exact (hgood.handle hspares h).2

/-! ### A child that claims a seqpacket socket -/

/-- The path `/p`. -/
def slashP : PathBuf := ⟨[0x2F, 0x70]⟩

/-- systemd starts a process with two blocking TCP sockets, `a` on port 8080 and `b` on port
8081, under the numbers 3 and 4. -/
def twoSockets : Fleet where
  members := [⟨
    { proc :=
        { limit := 16
          table := fun fd =>
            if fd = 3 then some ⟨7, false⟩ else if fd = 4 then some ⟨8, false⟩ else none
          inheritedFds := []
          usedFds := [] }
      child := false
      env := ⟨100, .ok 100, .ok "a:b"⟩
      sockets := none
      listeners := []
      app := [] }, []⟩]
  flags := fun file => if file = 7 ∨ file = 8 then some false else none

/-- Their addresses; other files are no TCP sockets. -/
def twoReports : Report := fun file kind =>
  if file = 7 ∧ kind = .tcp then .ok (.tcp (localhost 8080))
  else if file = 8 ∧ kind = .tcp then .ok (.tcp (localhost 8081))
  else .error "invalid argument"

theorem init_twoSockets : (fleet twoReports).Init twoSockets := by
  refine ⟨_, rfl, rfl, rfl, rfl, rfl, fun fd d hd => ?_⟩
  simp only [Member.proc] at hd
  split at hd
  · cases hd
    rfl
  · split at hd
    · cases hd
      rfl
    · cases hd

/-- The second process listens on the seqpacket socket at `/p`. -/
def claimsSlashP : Event :=
  .act 1 (.tokio (.listenUnixSeqpacket slashP (.failed "address in use") true))

/-- The first process reads its sockets, listens on both and on a seqpacket socket at `/p`,
and starts a child. -/
def orderlyRun : List Event :=
  [.act 0 .readSystemdSockets,
    .act 0 (.systemd (.listenTcp "a" (localhost 8080) none)),
    .act 0 (.systemd (.listenTcp "b" (localhost 8081) none)),
    .act 0 (.tokio (.listenUnixSeqpacket slashP (.created 7 20 slashP) true)),
    .act 0 .snapshot, .spawn 0]

/-- The child is handed the seqpacket socket, and it is non-blocking. -/
theorem nonblocking_orderly :
    ∃ s fd s', (fleet twoReports).Reachable s ∧
      s.handle twoReports claimsSlashP = some ([fd], s') ∧ s'.Nonblocking claimsSlashP [fd] := by
  have hrun : ((fleet twoReports).runVia spares twoSockets orderlyRun).isSome = true := by
    decide +kernel
  obtain ⟨s, hs⟩ := Option.isSome_iff_exists.mp hrun
  have hreach := TransitionSystem.reachableVia_of_runVia (.init init_twoSockets) hs
  have hcall : (((fleet twoReports).runVia spares twoSockets orderlyRun).bind fun s =>
      s.handle twoReports claimsSlashP).map Prod.fst = some [8] := by
    decide +kernel
  rw [hs, Option.bind_some] at hcall
  obtain ⟨⟨fds, s'⟩, hhandle, hfds⟩ := Option.map_eq_some_iff.mp hcall
  obtain rfl : fds = [8] := hfds
  have hspares : s.spares claimsSlashP = true := by
    simp [spares, claimsSlashP, Member.spares]
  exact ⟨s, 8, s', hreach.reachable, hhandle, nonblocking_of_spared hreach hspares hhandle⟩

/-- The first process asks for both sockets with a wrong port, listens on a seqpacket socket at
`/p`, asks for `b` with the right port, opens a blocking socket and starts a child. -/
def hastyRun : List Event :=
  [.act 0 .readSystemdSockets,
    .act 0 (.systemd (.listenTcp "a" (localhost 9090) none)),
    .act 0 (.systemd (.listenTcp "b" (localhost 9090) none)),
    .act 0 (.tokio (.listenUnixSeqpacket slashP (.created 3 20 slashP) true)),
    .act 0 (.systemd (.listenTcp "b" (localhost 8081) none)),
    .act 0 (.openFd 4 ⟨30, true⟩ false),
    .act 0 .snapshot, .spawn 0]

/-- The two failed calls have closed the numbers 3 and 4, and the registry has come to hold
number 4 for the socket at `/p`.  The third closes it there, and in the child the blocking
socket that was opened under it is handed out as the seqpacket listener. -/
theorem reused_number_hands_out_blocking :
    ∃ s s', (fleet twoReports).Reachable s ∧
      s.handle twoReports claimsSlashP = some ([4], s') ∧ ¬s'.Nonblocking claimsSlashP [4] := by
  have hcall : (((fleet twoReports).run twoSockets hastyRun).bind fun s =>
      s.handle twoReports claimsSlashP).map (fun x => decide (x.1 = [4]) &&
        decide (x.2.members[1]?.map (fun m => m.proc.fileOf 4) = some (some 30)) &&
        decide (x.2.flags 30 = some false)) = some true := by
    decide +kernel
  obtain ⟨⟨fds, s'⟩, hx, hcheck⟩ := Option.map_eq_some_iff.mp hcall
  obtain ⟨s, hs, hhandle⟩ := Option.bind_eq_some_iff.mp hx
  simp only [Bool.and_eq_true, decide_eq_true_eq] at hcheck
  obtain ⟨⟨rfl, hfile⟩, hflag⟩ := hcheck
  refine ⟨s, s', TransitionSystem.reachable_of_run (.init init_twoSockets) hs, hhandle, ?_⟩
  intro hall
  obtain ⟨m, file, hm, hopen, htrue⟩ := hall 4 (List.mem_singleton_self 4)
  rw [hm, Option.map_some, hopen, Option.some.injEq, Option.some.injEq] at hfile
  rw [hfile, hflag] at htrue
  cases htrue

end Fleet
