/-
# Sockets passed by systemd

The faithful model of `systemd_sockets.rs` and of the `systemd_*` methods of
`TokioEcdysis`.  systemd starts the first process with its sockets open under the numbers
from 3 on and their names in the environment; `read_systemd_sockets` makes a map of them,
and each method looks up a name, makes a listener of the number it finds, and registers
it when it has the address that was asked for.  In an upgraded child the same methods look
for the address in the registry instead.

A listener owns its number: when a method fails after it has made one, the listener is
dropped and the number closed, while the map keeps offering it.  `Systemd` is a process
with its map and the listeners that are alive; the application may open and close other
numbers and drop listeners.  What the system says about a socket (`report`), whether the
third-party constructor of a seqpacket listener accepts a number and whether a socket can
be turned into one of the runtime's are arguments.

* `Systemd.step_iff` : a step keeps the numbers of systemd open and owned once exactly when
  it is clean (`Systemd.clean`).
* `systemd_linear_iff` : so does a run, and then a clean call succeeds.
-/
import Ecdysis.RegistryLedger
import Ecdysis.TransitionSystem

/-! ## Data -/

/-- The types of listeners that `TryFromRawFd` and `Listener` are implemented for. -/
inductive ListenerKind
  | unix
  | unixSeqpacket
  | tcp
  | udp
  deriving DecidableEq

/-- An `io::Error`: of the system, by its text, or of a duplication. -/
inductive IoError
  | os (msg : String)
  | dup (e : Errno)

/-- `SystemdSocketError`; the texts are made of the arguments. -/
inductive SystemdSocketError
  | systemdSocketsNotInitialized
  | socketNotFoundInParent (name : String)
  | socketNotFoundInChildRegistry (sockInfo : SockInfo)
  | ioError (e : IoError)
  | sockInfoIncorrect (actual expected : SockInfo)

/-- `SystemdSocketsReadError`. -/
inductive SystemdSocketsReadError
  | environmentVariableError (msg : String)
  | doesNotMatchListenPid
  | duplicateSystemdSocketsRead
  deriving DecidableEq

/-- What `Listener::info` says about an open file, as a listener of some type. -/
abbrev Report := ℕ → ListenerKind → Except String SockInfo

/-- The environment of a process: its number, and `LISTEN_PID` (as a number) and
`LISTEN_FDNAMES`, or why they cannot be read. -/
structure Environment where
  pid : Int32
  listenPid : Except String Int32
  listenFdNames : Except String String

/-- The names in the environment. -/
def Environment.names (env : Environment) : List String :=
  match env.listenFdNames with
  | .ok names => (names.toList.splitOn ':').map String.ofList
  | .error _ => []

/-! ## `SystemdSockets` -/

/-- The map from names to numbers. -/
abbrev SystemdSockets := List (String × RawFd)

namespace SystemdSockets

/-- `SD_LISTEN_FDS_START`, and the number of the `i`-th name. -/
def number (i : ℕ) : RawFd := 3 + Int32.ofNat i

/-- The special names, which are ignored. -/
def specialSocketNames : List String := ["unknown", "stored", "connection"]

/-- Enter a name, unless it is special or there already. -/
def enter (map : SystemdSockets) (name : String) (fd : RawFd) : SystemdSockets :=
  if name ∈ specialSocketNames then map
  else if (map.lookup name).isSome then map
  else map ++ [(name, fd)]

/-- The loop of `SystemdSockets::new` over the names from the `i`-th on; `set_cloexec`
panics when a number is not open. -/
def readNames (p : Proc) (map : SystemdSockets) (i : ℕ) :
    List String → Option (SystemdSockets × Proc)
  | [] => some (map, p)
  | name :: names =>
    (p.setCloexec (number i)).bind fun q => readNames q (map.enter name (number i)) (i + 1) names

/-- `SystemdSockets::new`. -/
def new (p : Proc) (env : Environment) :
    Option (Except SystemdSocketsReadError SystemdSockets × Proc) :=
  match env.listenPid, env.listenFdNames with
  | .error msg, _ => some (.error (.environmentVariableError msg), p)
  | .ok _, .error msg => some (.error (.environmentVariableError msg), p)
  | .ok listenPid, .ok _ =>
    if listenPid ≠ env.pid then some (.error .doesNotMatchListenPid, p)
    else (readNames p [] 0 env.names).map fun (map, q) => (.ok map, q)

end SystemdSockets

/-! ## The methods -/

/-- A process: its registry, whether it is a child, its environment, its map if it has been
read, the numbers of the listeners that are alive, and the application's own numbers. -/
structure Systemd where
  proc : Proc
  child : Bool
  env : Environment
  sockets : Option SystemdSockets
  listeners : List RawFd
  app : List RawFd

/-- A call of one of the methods: the name and the address asked for, the type of listener,
and the errors of `try_from_raw_fd` and of turning the listener into one of the runtime's,
if there are any. -/
structure SystemdCall where
  name : String
  kind : ListenerKind
  sockInfo : SockInfo
  adopt : Option String
  convert : Option String

/-- The result of a method. -/
abbrev SystemdResult := Except SystemdSocketError RawFd

namespace Systemd

/-- `SystemdSockets::find`. -/
def find (s : Systemd) (name : String) : Option RawFd :=
  s.sockets.bind fun map => map.lookup name

/-- A listener is dropped, which closes its number. -/
def close (s : Systemd) (fd : RawFd) : Systemd := { s with proc := s.proc.closeFdQuiet fd }

/-- `TokioEcdysis::read_systemd_sockets`. -/
def readSystemdSockets (s : Systemd) : Option (Except SystemdSocketsReadError Unit × Systemd) :=
  if s.child then some (.ok (), s)
  else if s.sockets.isSome then some (.error .duplicateSystemdSocketsRead, s)
  else (SystemdSockets.new s.proc s.env).map fun (res, p) =>
    match res with
    | .error e => (.error e, { s with proc := p })
    | .ok map => (.ok (), { s with proc := p, sockets := some map })

/-- `Listener::info` of a listener of some type with the number `fd`. -/
def info (report : Report) (p : Proc) (kind : ListenerKind) (fd : RawFd) :
    Except String SockInfo :=
  match p.fileOf fd with
  | none => .error "Bad file descriptor"
  | some file => report file kind

/-- The part of `systemd_sock_of_proto` for the first process, once the name is found. -/
def sockOfNumber (report : Report) (s : Systemd) (c : SystemdCall) (fd : RawFd) :
    SystemdResult × Systemd :=
  match c.adopt with
  | some msg => (.error (.ioError (.os msg)), s.close fd)
  | none =>
    -- a listener owns the number from here on
    match info report s.proc c.kind fd with
    | .error msg => (.error (.ioError (.os msg)), s.close fd)
    | .ok actual =>
      if actual == c.sockInfo then
        match s.proc.add ⟨fd, actual⟩ with
        | .error e => (.error (.ioError (.dup e)), s.close fd)
        | .ok p => (.ok fd, { s with proc := p, listeners := fd :: s.listeners })
      else (.error (.sockInfoIncorrect actual c.sockInfo), s.close fd)

/-- `read_sock_from_registry_of_proto`; `none` is a panic of `set_cloexec`. -/
def readSockFromRegistryOfProto (s : Systemd) (c : SystemdCall) :
    Option (SystemdResult × Systemd) :=
  (s.proc.inherit c.sockInfo).map fun (found, p) =>
    let s' := { s with proc := p }
    match found with
    | none => (.error (.socketNotFoundInChildRegistry c.sockInfo), s')
    | some fd =>
      match c.adopt with
      | some msg => (.error (.ioError (.os msg)), s'.close fd)
      | none => (.ok fd, { s' with listeners := fd :: s.listeners })

/-- `systemd_sock_of_proto`. -/
def systemdSockOfProto (report : Report) (s : Systemd) (c : SystemdCall) :
    Option (SystemdResult × Systemd) :=
  if s.child then s.readSockFromRegistryOfProto c
  else match s.sockets with
    | none => some (.error .systemdSocketsNotInitialized, s)
    | some map =>
      match map.lookup c.name with
      | none => some (.error (.socketNotFoundInParent c.name), s)
      | some fd => some (s.sockOfNumber report c fd)

/-- The rest of the methods: the listener is made non-blocking and turned into one of the
runtime's, or dropped. -/
def converted (c : SystemdCall) : SystemdResult × Systemd → SystemdResult × Systemd
  | (.error e, s) => (.error e, s)
  | (.ok fd, s) =>
    match c.convert with
    | none => (.ok fd, s)
    | some msg =>
      (.error (.ioError (.os msg)), { s.close fd with listeners := s.listeners.erase fd })

/-- The common shape of the methods. -/
def perform (report : Report) (s : Systemd) (c : SystemdCall) :
    Option (SystemdResult × Systemd) :=
  (s.systemdSockOfProto report c).map (converted c)

/-- `TokioEcdysis::systemd_listen_unix`. -/
def systemdListenUnix (report : Report) (s : Systemd) (name : String) (path : PathBuf)
    (convert : Option String) : Option (SystemdResult × Systemd) :=
  s.perform report ⟨name, .unix, .unix (some path), none, convert⟩

/-- `TokioEcdysis::systemd_listen_unix_seqpacket`; only here `try_from_raw_fd` can fail. -/
def systemdListenUnixSeqpacket (report : Report) (s : Systemd) (name : String) (path : PathBuf)
    (adopt convert : Option String) : Option (SystemdResult × Systemd) :=
  s.perform report ⟨name, .unixSeqpacket, .unixSeqpacket (some path), adopt, convert⟩

/-- `TokioEcdysis::systemd_listen_tcp`. -/
def systemdListenTcp (report : Report) (s : Systemd) (name : String) (addr : SocketAddr)
    (convert : Option String) : Option (SystemdResult × Systemd) :=
  s.perform report ⟨name, .tcp, .tcp addr, none, convert⟩

/-- `TokioEcdysis::systemd_socket_udp`. -/
def systemdSocketUdp (report : Report) (s : Systemd) (name : String) (addr : SocketAddr)
    (convert : Option String) : Option (SystemdResult × Systemd) :=
  s.perform report ⟨name, .udp, .udp addr, none, convert⟩

/-- `TokioEcdysis::systemd_stream_udp`, which makes a stream of the socket. -/
def systemdStreamUdp (report : Report) (s : Systemd) (name : String) (addr : SocketAddr)
    (convert : Option String) : Option (SystemdResult × Systemd) :=
  s.systemdSocketUdp report name addr convert

end Systemd

/-- A call of one of the five methods. -/
inductive SystemdMethod
  | listenUnix (name : String) (path : PathBuf) (convert : Option String)
  | listenUnixSeqpacket (name : String) (path : PathBuf) (adopt convert : Option String)
  | listenTcp (name : String) (addr : SocketAddr) (convert : Option String)
  | socketUdp (name : String) (addr : SocketAddr) (convert : Option String)
  | streamUdp (name : String) (addr : SocketAddr) (convert : Option String)

/-- The call as `perform` sees it. -/
def SystemdMethod.call : SystemdMethod → SystemdCall
  | .listenUnix name path convert => ⟨name, .unix, .unix (some path), none, convert⟩
  | .listenUnixSeqpacket name path adopt convert =>
    ⟨name, .unixSeqpacket, .unixSeqpacket (some path), adopt, convert⟩
  | .listenTcp name addr convert => ⟨name, .tcp, .tcp addr, none, convert⟩
  | .socketUdp name addr convert | .streamUdp name addr convert =>
    ⟨name, .udp, .udp addr, none, convert⟩

namespace Systemd

/-- Carry out a call. -/
def invoke (report : Report) (s : Systemd) : SystemdMethod → Option (SystemdResult × Systemd)
  | .listenUnix name path convert => s.systemdListenUnix report name path convert
  | .listenUnixSeqpacket name path adopt convert =>
    s.systemdListenUnixSeqpacket report name path adopt convert
  | .listenTcp name addr convert => s.systemdListenTcp report name addr convert
  | .socketUdp name addr convert => s.systemdSocketUdp report name addr convert
  | .streamUdp name addr convert => s.systemdStreamUdp report name addr convert

/-- The five methods are one, up to type and address. -/
theorem invoke_eq (report : Report) (s : Systemd) (m : SystemdMethod) :
    s.invoke report m = s.perform report m.call := by
  cases m <;> rfl

/-- What can happen: `read_systemd_sockets`, a method, a listener is dropped, and the
application opens or closes a number of its own. -/
inductive Event
  | read
  | method (m : SystemdMethod)
  | drop (fd : RawFd)
  | openFd (fd : RawFd) (d : Desc)
  | closeFd (fd : RawFd)

/-- One step.  A number that is opened is free before. -/
def step (report : Report) (s : Systemd) : Event → Option Systemd
  | .read => s.readSystemdSockets.map Prod.snd
  | .method m => (s.invoke report m).map Prod.snd
  | .drop fd =>
    if fd ∈ s.listeners then some { s.close fd with listeners := s.listeners.erase fd } else none
  | .openFd fd d =>
    if s.proc.table fd = none then
      some { s with proc := s.proc.openFd fd d, app := fd :: s.app }
    else none
  | .closeFd fd =>
    if fd ∈ s.app then some { s.close fd with app := s.app.filter fun fd' => fd' ≠ fd } else none

end Systemd

/-- Everything a process can do. -/
def systemd (report : Report) (s₀ : Systemd) : TransitionSystem Systemd Systemd.Event where
  Init := fun s => s = s₀
  step := Systemd.step report

/-! ## What a call does -/

namespace Systemd

variable {report : Report} {s s' s₀ : Systemd} {c : SystemdCall} {fd : RawFd}

/-- The call fits the number it finds: the number is accepted, what it refers to has the
address asked for, it can be duplicated, and the listener can be turned into one of the
runtime's. -/
def fits (report : Report) (p : Proc) (c : SystemdCall) (fd : RawFd) : Bool :=
  c.adopt.isNone && c.convert.isNone && (p.cloneFd fd).isOk &&
    match info report p c.kind fd with
    | .ok actual => actual == c.sockInfo
    | .error _ => false

/-- **What `systemd_sock_of_proto` does in the first process**: nothing; or it closes the number
it has found; or the number has the address asked for and is registered. -/
theorem systemdSockOfProto_eq_some {res : SystemdResult} (hfirst : s.child = false)
    (h : s.systemdSockOfProto report c = some (res, s')) :
    (∃ e, res = .error e ∧ s' = s) ∨
    (∃ fd e, s.find c.name = some fd ∧ res = .error e ∧ s' = s.close fd) ∨
    (∃ fd actual p, s.find c.name = some fd ∧ info report s.proc c.kind fd = .ok actual ∧
      (actual == c.sockInfo) = true ∧ s.proc.add ⟨fd, actual⟩ = .ok p ∧ res = .ok fd ∧
      s' = { s with proc := p, listeners := fd :: s.listeners }) := by
  simp only [systemdSockOfProto, hfirst, Bool.false_eq_true, if_false] at h
  cases hmap : s.sockets with
  | none =>
    simp only [hmap, Option.some.injEq, Prod.mk.injEq] at h
    exact .inl ⟨_, h.1.symm, h.2.symm⟩
  | some map =>
    cases hlookup : map.lookup c.name with
    | none =>
      simp only [hmap, hlookup, Option.some.injEq, Prod.mk.injEq] at h
      exact .inl ⟨_, h.1.symm, h.2.symm⟩
    | some fd =>
      have hfind : s.find c.name = some fd := by simp [find, hmap, hlookup]
      simp only [hmap, hlookup, Option.some.injEq, sockOfNumber] at h
      right
      split at h
      · cases h
        exact .inl ⟨fd, _, hfind, rfl, rfl⟩
      · split at h
        · cases h
          exact .inl ⟨fd, _, hfind, rfl, rfl⟩
        · rename_i actual hinfo
          split at h
          · rename_i hmatch
            split at h
            · cases h
              exact .inl ⟨fd, _, hfind, rfl, rfl⟩
            · rename_i p hadd
              cases h
              exact .inr ⟨fd, actual, p, hfind, hinfo, hmatch, hadd, rfl, rfl⟩
          · cases h
            exact .inl ⟨fd, _, hfind, rfl, rfl⟩

/-- A name that is not offered. -/
theorem perform_of_find_eq_none (report : Report) (hchild : s.child = false)
    (hfind : s.find c.name = none) :
    ∃ e, s.perform report c = some (.error e, s) ∧ ∀ a b, e ≠ .sockInfoIncorrect a b := by
  unfold perform systemdSockOfProto
  simp only [hchild, Bool.false_eq_true, if_false]
  cases hmap : s.sockets with
  | none => exact ⟨_, rfl, by simp⟩
  | some map =>
    have hlookup : map.lookup c.name = none := by simpa [find, hmap] using hfind
    simp only [hlookup]
    exact ⟨_, rfl, by simp⟩

/-- **A name that is offered**: a call that fits succeeds, and its number is registered and
gets an owner; any other call fails and closes the number. -/
theorem perform_of_find_eq_some (report : Report) (hchild : s.child = false)
    (hfind : s.find c.name = some fd) :
    (fits report s.proc c fd = true ∧ ∃ actual p, s.proc.add ⟨fd, actual⟩ = .ok p ∧
      (actual == c.sockInfo) = true ∧
      s.perform report c = some (.ok fd, { s with proc := p, listeners := fd :: s.listeners })) ∨
    (fits report s.proc c fd = false ∧ ∃ e p,
      (p = s.proc ∨ ∃ actual, s.proc.add ⟨fd, actual⟩ = .ok p) ∧
      s.perform report c = some (.error e, { s with proc := p.closeFdQuiet fd })) := by
  obtain ⟨map, hmap, hlookup⟩ := Option.bind_eq_some_iff.mp hfind
  have heq : s.perform report c = some (converted c (s.sockOfNumber report c fd)) := by
    simp [perform, systemdSockOfProto, hchild, hmap, hlookup]
  rw [heq]
  cases hadopt : c.adopt with
  | some msg =>
    right
    refine ⟨by simp [fits, hadopt], .ioError (.os msg), s.proc, .inl rfl, ?_⟩
    simp only [sockOfNumber, hadopt, converted]
    rfl
  | none =>
    cases hinfo : info report s.proc c.kind fd with
    | error msg =>
      right
      refine ⟨by simp [fits, hinfo], .ioError (.os msg), s.proc, .inl rfl, ?_⟩
      simp only [sockOfNumber, hadopt, hinfo, converted]
      rfl
    | ok actual =>
      cases hmatch : actual == c.sockInfo with
      | false =>
        right
        refine ⟨by simp [fits, hinfo, hmatch], .sockInfoIncorrect actual c.sockInfo,
          s.proc, .inl rfl, ?_⟩
        simp only [sockOfNumber, hadopt, hinfo, hmatch, converted]
        rfl
      | true =>
        cases hadd : s.proc.add ⟨fd, actual⟩ with
        | error e =>
          right
          have hdup : (s.proc.cloneFd fd).isOk = false := by
            by_contra hne
            exact Proc.add_ne_error (by simpa using hne) hadd
          refine ⟨by simp [fits, hdup], .ioError (.dup e), s.proc, .inl rfl, ?_⟩
          simp only [sockOfNumber, hadopt, hinfo, hmatch, hadd, converted, if_true]
          rfl
        | ok p =>
          have hdup : (s.proc.cloneFd fd).isOk = true := by
            unfold Proc.add at hadd
            split at hadd
            · cases hadd
            · rename_i n q hclone
              rw [hclone]
              rfl
          cases hconv : c.convert with
          | none =>
            left
            refine ⟨by simp [fits, hadopt, hconv, hdup, hinfo, hmatch], actual, p, hadd, hmatch, ?_⟩
            simp only [sockOfNumber, hadopt, hinfo, hmatch, hadd, converted, hconv, if_true]
          | some msg =>
            right
            refine ⟨by simp [fits, hconv], .ioError (.os msg), p, .inr ⟨actual, hadd⟩, ?_⟩
            simp only [sockOfNumber, hadopt, hinfo, hmatch, hadd, converted, hconv, if_true,
              List.erase_cons_head]
            rfl

/-! ## Linearity -/

/-- systemd has just started the process: the numbers of the names in its environment are
open and not the application's. -/
structure Start (s : Systemd) : Prop where
  first : s.child = false
  sockets : s.sockets = none
  listeners : s.listeners = []
  passed : ∀ i < s.env.names.length, (s.proc.fileOf (SystemdSockets.number i)).isSome ∧
    SystemdSockets.number i ∉ s.app

/-- No number has two owners, and what the map offers is open and what systemd passed. -/
structure Linear (s₀ s : Systemd) : Prop where
  owned : s.listeners.Nodup
  offered : ∀ name fd, s.find name = some fd →
    ∃ file, s₀.proc.fileOf fd = some file ∧ s.proc.fileOf fd = some file

/-- A call that fails with `SockInfoIncorrect` leaves open what it found. -/
def Spares (report : Report) (s : Systemd) (e : Event) (s' : Systemd) : Prop :=
  ∀ m actual expected fd, e = .method m →
    (s.invoke report m).map Prod.fst = some (.error (.sockInfoIncorrect actual expected)) →
    s.find m.call.name = some fd → (s'.proc.fileOf fd).isSome

/-- The condition: a call for a name that is offered is for one that no listener owns, and
fits it; and no listener is dropped. -/
def clean (report : Report) (s : Systemd) : Event → Bool
  | .method m =>
    match s.find m.call.name with
    | none => true
    | some fd => decide (fd ∉ s.listeners) && fits report s.proc m.call fd
  | .drop _ => false
  | .read | .openFd _ _ | .closeFd _ => true

/-- What holds as long as all steps are clean: the numbers systemd passed are open and not
the application's, the map offers only these, and each listener owns one of them. -/
structure Inv (s₀ s : Systemd) : Prop where
  first : s.child = false
  env : s.env = s₀.env
  passed : ∀ i < s.env.names.length,
    (∃ file, s₀.proc.fileOf (SystemdSockets.number i) = some file ∧
      s.proc.fileOf (SystemdSockets.number i) = some file) ∧
    SystemdSockets.number i ∉ s.app
  offered : ∀ name fd, s.find name = some fd →
    ∃ i < s.env.names.length, fd = SystemdSockets.number i
  nodup : s.listeners.Nodup
  owned : ∀ fd ∈ s.listeners, ∃ name, s.find name = some fd

theorem Start.inv (h : s.Start) : Inv s s := by
  refine ⟨h.first, rfl, fun i hi => ?_, ?_, ?_, ?_⟩
  · obtain ⟨hopen, happ⟩ := h.passed i hi
    obtain ⟨file, hfile⟩ := Option.isSome_iff_exists.mp hopen
    exact ⟨⟨file, hfile, hfile⟩, happ⟩
  · simp [find, h.sockets]
  · simp [h.listeners]
  · simp [h.listeners]

/-- What the map offers is open and not the application's. -/
theorem Inv.offered_passed (h : Inv s₀ s) {name : String} (hfind : s.find name = some fd) :
    (∃ file, s₀.proc.fileOf fd = some file ∧ s.proc.fileOf fd = some file) ∧ fd ∉ s.app := by
  obtain ⟨i, hi, rfl⟩ := h.offered name fd hfind
  exact h.passed i hi

theorem Inv.linear (h : Inv s₀ s) : Linear s₀ s :=
  ⟨h.nodup, fun _ _ hfind => (h.offered_passed hfind).1⟩

/-- A step that keeps the files of the numbers systemd passed. -/
theorem Inv.of_proc (h : Inv s₀ s) {p : Proc} {app : List RawFd}
    (hfile : ∀ i < s.env.names.length, p.fileOf (SystemdSockets.number i)
      = s.proc.fileOf (SystemdSockets.number i))
    (happ : ∀ i < s.env.names.length, SystemdSockets.number i ∉ app) :
    Inv s₀ { s with proc := p, app := app } := by
  refine ⟨h.first, h.env, fun i hi => ⟨?_, happ i hi⟩, h.offered, h.nodup, h.owned⟩
  obtain ⟨⟨file, h₀, hfile'⟩, -⟩ := h.passed i hi
  exact ⟨file, h₀, (hfile i hi).trans hfile'⟩

end Systemd

/-! ## Reading the environment -/

namespace SystemdSockets

variable {map : SystemdSockets} {p q : Proc} {name : String} {fd : RawFd}

/-- What is found after a name has been entered. -/
theorem lookup_enter {name' : String} {fd' : RawFd}
    (h : (map.enter name' fd').lookup name = some fd) :
    map.lookup name = some fd ∨ fd = fd' := by
  unfold enter at h
  split at h
  · exact .inl h
  · split at h
    · exact .inl h
    · rw [List.lookup_append, Option.or_eq_some_iff] at h
      rcases h with h | ⟨-, h⟩
      · exact .inl h
      · rw [List.lookup_cons] at h
        split at h
        · cases h
          exact .inr rfl
        · cases h

/-- The loop keeps the registry and all files, and the map gets numbers of the names only. -/
theorem readNames_spec {i : ℕ} {names : List String} {map' : SystemdSockets}
    (h : readNames p map i names = some (map', q)) :
    (∀ fd, q.fileOf fd = p.fileOf fd) ∧
      (q.inheritedFds = p.inheritedFds ∧ q.usedFds = p.usedFds) ∧
      ∀ name fd, map'.lookup name = some fd →
        map.lookup name = some fd ∨ ∃ j < names.length, fd = number (i + j) := by
  induction names generalizing p map i with
  | nil =>
    cases h
    exact ⟨fun _ => rfl, ⟨rfl, rfl⟩, fun _ _ hfd => .inl hfd⟩
  | cons name' names ih =>
    obtain ⟨p', hset, hrest⟩ := Option.bind_eq_some_iff.mp h
    obtain ⟨d, hd, rfl⟩ := Option.map_eq_some_iff.mp hset
    obtain ⟨hfile, hregistry, hmap⟩ := ih hrest
    refine ⟨fun fd => (hfile fd).trans (Proc.fileOf_setFlag hd true fd), hregistry,
      fun name fd hfd => ?_⟩
    rcases hmap name fd hfd with hfd | ⟨j, hj, rfl⟩
    · rcases lookup_enter hfd with hfd | rfl
      · exact .inl hfd
      · exact .inr ⟨0, by simp, rfl⟩
    · exact .inr ⟨j + 1, by simpa using hj, by rw [Nat.add_assoc, Nat.add_comm 1 j]⟩

end SystemdSockets

/-! ## Clean steps -/

namespace Systemd

variable {report : Report} {s s' s₀ : Systemd} {e : Event} {fd : RawFd}

/-- What reading the environment does: nothing, or the map is read, which keeps the registry
and all files. -/
theorem readSystemdSockets_eq_some {res : Except SystemdSocketsReadError Unit}
    (hread : s.readSystemdSockets = some (res, s')) :
    s' = s ∨ s.sockets = none ∧ ∃ map p, s' = { s with proc := p, sockets := some map } ∧
      SystemdSockets.readNames s.proc [] 0 s.env.names = some (map, p) := by
  unfold readSystemdSockets at hread
  split at hread
  · cases hread
    exact .inl rfl
  · split at hread
    · cases hread
      exact .inl rfl
    · rename_i hsockets
      obtain ⟨⟨res', p⟩, hnew, heq⟩ := Option.map_eq_some_iff.mp hread
      unfold SystemdSockets.new at hnew
      split at hnew
      · cases hnew
        cases heq
        exact .inl rfl
      · cases hnew
        cases heq
        exact .inl rfl
      · split at hnew
        · cases hnew
          cases heq
          exact .inl rfl
        · obtain ⟨⟨map, q⟩, hnames, heq'⟩ := Option.map_eq_some_iff.mp hnew
          cases heq'
          cases heq
          exact .inr ⟨by simpa using hsockets, map, _, rfl, hnames⟩

/-- Reading the environment. -/
theorem Inv.read (h : Inv s₀ s) {res : Except SystemdSocketsReadError Unit}
    (hread : s.readSystemdSockets = some (res, s')) : Inv s₀ s' := by
  rcases readSystemdSockets_eq_some hread with rfl | ⟨hnone, map, p, rfl, hnames⟩
  · exact h
  · have hlisteners : s.listeners = [] := by
      refine List.eq_nil_iff_forall_not_mem.mpr fun fd hfd => ?_
      obtain ⟨name, hname⟩ := h.owned fd hfd
      simp [find, hnone] at hname
    obtain ⟨hfile, -, hmap⟩ := SystemdSockets.readNames_spec hnames
    refine ⟨h.first, h.env, fun i hi => ?_, fun name fd hfd => ?_, h.nodup, ?_⟩
    · obtain ⟨⟨file, h₀, hopen⟩, happ⟩ := h.passed i hi
      exact ⟨⟨file, h₀, (hfile _).trans hopen⟩, happ⟩
    · rcases hmap name fd hfd with hfd | ⟨j, hj, rfl⟩
      · cases hfd
      · exact ⟨j, hj, by rw [Nat.zero_add]⟩
    · simp [hlisteners]

/-- A number that was open keeps its file when a number is registered. -/
theorem fileOf_add {p q : Proc} {item : ListenerInfo} (hadd : p.add item = .ok q)
    (hopen : p.fileOf fd ≠ none) : q.fileOf fd = p.fileOf fd := by
  obtain ⟨n, d, -, -, -, hfree, rfl⟩ := Proc.add_eq_ok hadd
  refine Proc.fileOf_openFd_of_ne ?_
  rintro rfl
  simp [Proc.fileOf, hfree] at hopen

/-- **A clean step** keeps the invariant, and no call fails with `SockInfoIncorrect`. -/
theorem Inv.step (h : Inv s₀ s) (hstep : s.step report e = some s')
    (hclean : s.clean report e = true) : Inv s₀ s' ∧ Spares report s e s' := by
  cases e with
  | read =>
    obtain ⟨⟨res, t⟩, hread, rfl⟩ := Option.map_eq_some_iff.mp hstep
    exact ⟨h.read hread, by rintro m _ _ _ ⟨⟩⟩
  | method m =>
    obtain ⟨⟨res, t⟩, hres, rfl⟩ := Option.map_eq_some_iff.mp hstep
    have hres' := hres
    rw [invoke_eq] at hres
    cases hfind : s.find m.call.name with
    | none =>
      obtain ⟨err, hperform, -⟩ := perform_of_find_eq_none report h.first hfind
      rw [hperform] at hres
      cases hres
      refine ⟨h, ?_⟩
      rintro _ _ _ fd ⟨⟩ - hfd
      rw [hfind] at hfd
      cases hfd
    | some fd =>
      simp only [clean, hfind, Bool.and_eq_true, decide_eq_true_eq] at hclean
      rcases perform_of_find_eq_some report h.first hfind with
        ⟨-, actual, p, hadd, -, hperform⟩ | ⟨hfits, -⟩
      · rw [hperform] at hres
        cases hres
        refine ⟨⟨h.first, h.env, fun i hi => ?_, h.offered, ?_, ?_⟩, ?_⟩
        · obtain ⟨⟨file, h₀, hopen⟩, happ⟩ := h.passed i hi
          exact ⟨⟨file, h₀, (fileOf_add hadd (by simp [hopen])).trans hopen⟩, happ⟩
        · exact List.nodup_cons.mpr ⟨hclean.1, h.nodup⟩
        · intro fd' hfd'
          rcases List.mem_cons.mp hfd' with rfl | hfd'
          · exact ⟨m.call.name, hfind⟩
          · exact h.owned fd' hfd'
        · rintro _ _ _ _ ⟨⟩ hincorrect -
          rw [hres'] at hincorrect
          cases hincorrect
      · rw [hfits] at hclean
        cases hclean.2
  | drop fd => cases hclean
  | openFd fd d =>
    simp only [Systemd.step] at hstep
    split at hstep
    · rename_i hfree
      cases hstep
      have hne : ∀ i < s.env.names.length, SystemdSockets.number i ≠ fd := by
        rintro i hi rfl
        obtain ⟨⟨file, -, hopen⟩, -⟩ := h.passed i hi
        simp [Proc.fileOf, hfree] at hopen
      refine ⟨h.of_proc (fun i hi => Proc.fileOf_openFd_of_ne (hne i hi)) fun i hi hmem => ?_,
        by rintro m _ _ _ ⟨⟩⟩
      rcases List.mem_cons.mp hmem with heq | hmem
      · exact hne i hi heq
      · exact (h.passed i hi).2 hmem
    · cases hstep
  | closeFd fd =>
    simp only [Systemd.step] at hstep
    split at hstep
    · rename_i hfd
      cases hstep
      have hne : ∀ i < s.env.names.length, SystemdSockets.number i ≠ fd := by
        rintro i hi rfl
        exact (h.passed i hi).2 hfd
      refine ⟨h.of_proc (fun i hi => Proc.fileOf_closeFdQuiet_of_ne (hne i hi)) fun i hi hmem => ?_,
        by rintro m _ _ _ ⟨⟩⟩
      exact (h.passed i hi).2 (List.mem_of_mem_filter hmem)
    · cases hstep

/-- A number that the map offers is closed. -/
theorem not_linear_of_closed (name : String) (hfind : s'.find name = some fd)
    (hclosed : s'.proc.fileOf fd = none) : ¬ Linear s₀ s' := by
  intro hlinear
  obtain ⟨file, -, hopen⟩ := hlinear.offered name fd hfind
  rw [hclosed] at hopen
  cases hopen

/-- **Any other step breaks linearity**: a number gets a second owner, or a number that the
map offers is closed. -/
theorem Inv.not_linear (h : Inv s₀ s) (hstep : s.step report e = some s')
    (hclean : s.clean report e = false) : ¬ Linear s₀ s' := by
  cases e with
  | method m =>
    obtain ⟨⟨res, t⟩, hres, rfl⟩ := Option.map_eq_some_iff.mp hstep
    rw [invoke_eq] at hres
    cases hfind : s.find m.call.name with
    | none => simp [clean, hfind] at hclean
    | some fd =>
      rcases perform_of_find_eq_some report h.first hfind with
        ⟨hfits, actual, p, -, -, hperform⟩ | ⟨-, err, p, -, hperform⟩
      · rw [hperform] at hres
        cases hres
        simp only [clean, hfind, hfits, Bool.and_true, decide_eq_false_iff_not,
          Decidable.not_not] at hclean
        exact fun hlinear => (List.nodup_cons.mp hlinear.owned).1 hclean
      · rw [hperform] at hres
        cases hres
        exact not_linear_of_closed m.call.name hfind (by simp [Proc.fileOf, Proc.closeFdQuiet])
  | drop fd =>
    simp only [Systemd.step] at hstep
    split at hstep
    · rename_i hfd
      cases hstep
      obtain ⟨name, hname⟩ := h.owned fd hfd
      exact not_linear_of_closed name hname (by simp [close, Proc.fileOf, Proc.closeFdQuiet])
    · cases hstep
  | read => cases hclean
  | openFd fd d => cases hclean
  | closeFd fd => cases hclean

/-- A step keeps what it should exactly when it is clean. -/
theorem Inv.step_iff (h : Inv s₀ s) (hstep : s.step report e = some s') :
    (Linear s₀ s' ∧ Spares report s e s' ↔ s.clean report e = true) ∧
      (s.clean report e = true → Inv s₀ s') := by
  refine ⟨⟨fun hkeep => ?_, fun hclean => ?_⟩, fun hclean => (h.step hstep hclean).1⟩
  · by_contra hne
    exact h.not_linear hstep (by simpa using hne) hkeep.1
  · obtain ⟨hinv, hspares⟩ := h.step hstep hclean
    exact ⟨hinv.linear, hspares⟩

end Systemd

/-- **systemd's descriptors are handed out linearly**, in a run of the first process, exactly
when all its steps meet the condition: no number has two owners, what the map offers is open
and what systemd passed, and a call that fails with `SockInfoIncorrect` closes nothing.  And
after such a run a call for a name that is offered and meets the condition succeeds, with the
descriptor that systemd passed. -/
theorem systemd_linear_iff (report : Report) {s₀ : Systemd} (h0 : s₀.Start)
    (es : List Systemd.Event) :
    ((systemd report s₀).Along
        (fun s e s' => Systemd.Linear s₀ s' ∧ Systemd.Spares report s e s') s₀ es ↔
      (systemd report s₀).Along (fun s e _ => s.clean report e = true) s₀ es) ∧
    ∀ s m fd, (systemd report s₀).Along (fun s e _ => s.clean report e = true) s₀ es →
      (systemd report s₀).run s₀ es = some s → s.find m.call.name = some fd →
      s.clean report (.method m) = true →
      ∃ s', s.invoke report m = some (.ok fd, s') ∧
        s'.proc.fileOf fd = s₀.proc.fileOf fd := by
  refine ⟨TransitionSystem.along_iff (I := Systemd.Inv s₀)
    (fun s e s' hs hstep => hs.step_iff hstep) h0.inv es, ?_⟩
  intro s m fd hclean hrun hfind hm
  have hinv := hclean.invariant (I := Systemd.Inv s₀)
    (fun s e s' hs hstep hclean => (hs.step hstep hclean).1) h0.inv hrun
  rw [Systemd.invoke_eq]
  rcases Systemd.perform_of_find_eq_some report hinv.first hfind with
    ⟨-, actual, p, hadd, -, hperform⟩ | ⟨hfits, -⟩
  · obtain ⟨⟨file, h₀, hopen⟩, -⟩ := hinv.offered_passed hfind
    refine ⟨_, hperform, ?_⟩
    show p.fileOf fd = _
    rw [Systemd.fileOf_add hadd (by simp [hopen]), hopen, h₀]
  · simp [Systemd.clean, hfind, hfits] at hm

/-! ## A wrong address -/

/-- systemd passes one TCP socket, bound to port 8080, under the name `web`. -/
def webProcess : Systemd where
  proc := ⟨16, fun fd => if fd = 3 then some ⟨7, false⟩ else none, [], []⟩
  child := false
  env := ⟨100, .ok 100, .ok "web"⟩
  sockets := none
  listeners := []
  app := []

/-- The address of the socket, and no other. -/
def webReport : Report := fun file kind =>
  if file = 7 ∧ kind = .tcp then .ok (.tcp (localhost 8080)) else .error "not a socket"

theorem start_webProcess : webProcess.Start := by
  refine ⟨rfl, rfl, rfl, ?_⟩
  decide +kernel

/-- A call for the right address. -/
def webCall : SystemdMethod := .listenTcp "web" (localhost 8080) none

/-- The application asks for `web` with a wrong port: the call fails, the number is closed,
and a second call with the right port fails too, although the map still offers the name. -/
theorem incorrect_sock_info_closes :
    ∃ s₁ s₂ s₃ actual expected e, webProcess.Start ∧
      (systemd webReport webProcess).step webProcess .read = some s₁ ∧
      s₁.invoke webReport (.listenTcp "web" (localhost 9090) none)
        = some (.error (.sockInfoIncorrect actual expected), s₂) ∧
      s₂.find "web" = some 3 ∧ s₂.proc.fileOf 3 = none ∧
      s₂.invoke webReport webCall = some (.error e, s₃) := by
  refine ⟨_, _, _, _, _, _, start_webProcess, rfl, rfl, rfl, rfl, rfl⟩

/-- When the application asks for `web` once, with the right port, all is well. -/
theorem systemd_linear_iff_web :
    (systemd webReport webProcess).Along
      (fun s e s' => Systemd.Linear webProcess s' ∧ Systemd.Spares webReport s e s') webProcess
      [.read, .method webCall] := by
  have hrun : ((systemd webReport webProcess).runVia (Systemd.clean webReport) webProcess
      [.read, .method webCall]).isSome = true := by
    decide +kernel
  obtain ⟨s, hs⟩ := Option.isSome_iff_exists.mp hrun
  exact (systemd_linear_iff webReport start_webProcess _).1.mpr
    (TransitionSystem.along_of_runVia hs)
