/-
# What kind of socket systemd passes

`systemd_sock_of_proto` makes a listener of type `P` from the number it finds and compares
what `info` says about it with the description asked for.  But `info` builds the description
from `P`: the variant is `P`'s own, and only the address comes from the system.  Neither the
constructors nor `getsockname` look at the type of the socket.

`systemd_checks_iff`: a successful call always has the right domain and local address, and
the socket is the one asked for exactly when its type happens to be the one `P` stands for.
A wrong one is registered all the same, and is handed on to the children.
-/
import Ecdysis.SystemdSockets

/-! ## Sockets of the system -/

/-- The type of a socket. -/
inductive SockType
  | stream
  | dgram
  | seqpacket
  | raw
  deriving DecidableEq

/-- What `getsockname` says of a socket: its domain, and its address there.  A unix socket
without a pathname is unnamed or has an abstract name. -/
inductive LocalAddr
  | unix (pathname : Option PathBuf)
  | inet (addr : SocketAddr)
  | other (family : UInt16)

/-- A socket. -/
structure KernelSocket where
  type : SockType
  addr : LocalAddr

/-- The open files that are sockets. -/
abbrev Sockets := ℕ → Option KernelSocket

/-- `local_addr` of the third-party seqpacket listener, on any socket. -/
abbrev SeqpacketAddr := KernelSocket → Except String PathBuf

namespace ListenerKind

/-- `Listener::info`, on any socket.  The address types of the standard library check the
domain of the address, and nothing else is checked. -/
def info (seqpacketAddr : SeqpacketAddr) : ListenerKind → KernelSocket → Except String SockInfo
  | .unix, ⟨_, .unix pathname⟩ => .ok (.unix pathname)
  | .unix, _ => .error "file descriptor did not correspond to a Unix socket"
  | .tcp, ⟨_, .inet addr⟩ => .ok (.tcp addr)
  | .tcp, _ => .error "invalid argument"
  | .udp, ⟨_, .inet addr⟩ => .ok (.udp addr)
  | .udp, _ => .error "invalid argument"
  | .unixSeqpacket, sock => (seqpacketAddr sock).map fun path => .unixSeqpacket (some path)

/-- The type of socket a listener is for. -/
def sockType : ListenerKind → SockType
  | .unix => .stream
  | .tcp => .stream
  | .udp => .dgram
  | .unixSeqpacket => .seqpacket

/-- The listener's variant of `SockInfo`. -/
def describes : ListenerKind → SockInfo → Bool
  | .unix, .unix _ => true
  | .tcp, .tcp _ => true
  | .udp, .udp _ => true
  | .unixSeqpacket, .unixSeqpacket _ => true
  | _, _ => false

end ListenerKind

/-- What the listeners say about the open files. -/
def Sockets.report (sockets : Sockets) (seqpacketAddr : SeqpacketAddr) : Report :=
  fun file kind =>
    match sockets file with
    | none => .error "Socket operation on non-socket"
    | some sock => kind.info seqpacketAddr sock

/-- What is documented of the seqpacket listener: it reports the pathname of a unix socket,
and the empty path when there is none. -/
def SeqpacketAddr.Documented (seqpacketAddr : SeqpacketAddr) : Prop :=
  ∀ sock path, seqpacketAddr sock = .ok path →
    sock.addr = .unix (if path.bytes = [] then none else some path)

/-! ## What is asked for -/

/-- The local address, and with it the domain, is the one the description denotes. -/
def SockInfo.Denotes : SockInfo → LocalAddr → Prop
  | .unix path, addr => ∃ pathname, addr = .unix pathname ∧ (pathname == path) = true
  | .unixSeqpacket (some path), addr =>
    ∃ pathname, addr = .unix pathname ∧ (pathname.getD ⟨[]⟩ == path) = true
  | .unixSeqpacket none, addr => addr = .unix none
  | .tcp a, addr => addr = .inet a
  | .udp a, addr => addr = .inet a
  | .unboundUnixDatagram _, _ => False

/-- Equal descriptions denote the same addresses. -/
theorem SockInfo.denotes_of_beq {k l : SockInfo} (h : (k == l) = true) (addr : LocalAddr)
    (hk : k.Denotes addr) : l.Denotes addr := by
  cases k <;> cases l <;> first | cases h | skip
  case unix.unix p q =>
    obtain ⟨pathname, rfl, hp⟩ := hk
    refine ⟨pathname, rfl, ?_⟩
    rw [PathBuf.option_beq_iff] at hp ⊢
    exact hp.trans ((PathBuf.option_beq_iff p q).mp h)
  case unixSeqpacket.unixSeqpacket p q =>
    cases p <;> cases q <;> first | exact hk | cases h | skip
    obtain ⟨pathname, rfl, hp⟩ := hk
    refine ⟨pathname, rfl, ?_⟩
    rw [PathBuf.beq_iff] at hp ⊢
    exact hp.trans ((PathBuf.beq_iff _ _).mp h)
  all_goals
    rw [SockInfo.beq_iff_key] at h
    cases h
    exact hk

/-- Equal descriptions are of the same variant. -/
theorem ListenerKind.describes_of_beq {k l : SockInfo} (h : (k == l) = true)
    (kind : ListenerKind) : kind.describes l = kind.describes k := by
  cases k <;> cases l <;> first | cases h | skip
  all_goals cases kind <;> rfl

/-- The socket has the type, the domain and the local address asked for. -/
structure KernelSocket.Genuine (sock : KernelSocket) (kind : ListenerKind) (k : SockInfo) :
    Prop where
  type : sock.type = kind.sockType
  variant : kind.describes k = true
  addr : k.Denotes sock.addr

/-- **What `info` says is true of the address**: it is the listener's variant, and denotes the
local address of the socket. -/
theorem ListenerKind.info_denotes {seqpacketAddr : SeqpacketAddr}
    (hdoc : seqpacketAddr.Documented) {kind : ListenerKind} {sock : KernelSocket} {k : SockInfo}
    (h : kind.info seqpacketAddr sock = .ok k) :
    kind.describes k = true ∧ k.Denotes sock.addr := by
  obtain ⟨type, addr⟩ := sock
  cases kind with
  | unix =>
    cases addr <;> cases h
    exact ⟨rfl, _, rfl, (PathBuf.option_beq_iff _ _).mpr rfl⟩
  | tcp =>
    cases addr <;> cases h
    exact ⟨rfl, rfl⟩
  | udp =>
    cases addr <;> cases h
    exact ⟨rfl, rfl⟩
  | unixSeqpacket =>
    simp only [info] at h
    cases hpath : seqpacketAddr ⟨type, addr⟩ with
    | error msg =>
      rw [hpath] at h
      cases h
    | ok path =>
      rw [hpath] at h
      cases h
      refine ⟨rfl, _, hdoc _ _ hpath, ?_⟩
      rw [PathBuf.beq_iff]
      split
      · rename_i hempty
        obtain ⟨bytes⟩ := path
        cases hempty
        rfl
      · rfl

/-! ## What a successful call has found -/

namespace Systemd

variable {report : Report} {s s' : Systemd} {c : SystemdCall} {fd : RawFd}

/-- What `info` says comes from a socket. -/
theorem info_eq_ok {sockets : Sockets} {seqpacketAddr : SeqpacketAddr} {p : Proc}
    {kind : ListenerKind} {k : SockInfo}
    (h : info (sockets.report seqpacketAddr) p kind fd = .ok k) :
    ∃ file sock, p.fileOf fd = some file ∧ sockets file = some sock ∧
      kind.info seqpacketAddr sock = .ok k := by
  unfold info at h
  split at h
  · cases h
  · rename_i file hfile
    unfold Sockets.report at h
    split at h
    · cases h
    · rename_i sock hsock
      exact ⟨file, sock, hfile, hsock, h⟩

/-- **The check of the first process.**  For all open files, names and descriptions: what a
successful call has found is a socket, and one entry for it has been registered; and the
socket is what the type of the listener and the description ask for, and what the entry
says, exactly when its type is the one the listener is for. -/
theorem systemd_checks_iff (sockets : Sockets) {seqpacketAddr : SeqpacketAddr}
    (hdoc : seqpacketAddr.Documented) (hfirst : s.child = false)
    (h : s.systemdSockOfProto (sockets.report seqpacketAddr) c = some (.ok fd, s')) :
    ∃ file sock li, s.find c.name = some fd ∧ s.proc.fileOf fd = some file ∧
      sockets file = some sock ∧ s'.proc.usedFds = s.proc.usedFds ++ [li] ∧
      s'.proc.fileOf li.fd = some file ∧
      (sock.Genuine c.kind c.sockInfo ∧ sock.Genuine c.kind li.sockInfo
        ↔ sock.type = c.kind.sockType) := by
  rcases systemdSockOfProto_eq_some hfirst h with ⟨e, he, -⟩ | ⟨fd', e, -, he, -⟩ |
    ⟨fd', actual, p, hfind, hinfo, hmatch, hadd, hres, rfl⟩
  · cases he
  · cases he
  cases hres
  obtain ⟨file, sock, hfile, hsock, hsays⟩ := info_eq_ok hinfo
  obtain ⟨hvariant, haddr⟩ := ListenerKind.info_denotes hdoc hsays
  obtain ⟨n, d, hd, -, -, -, rfl⟩ := Proc.add_eq_ok hadd
  have hd' : d.file = file := by simpa [Proc.fileOf, hd] using hfile
  refine ⟨file, sock, ⟨n, actual⟩, hfind, hfile, hsock, rfl, ?_, ?_⟩
  · simp [Proc.fileOf, Proc.openFd, hd']
  · refine ⟨fun hboth => hboth.1.type, fun htype => ⟨⟨htype, ?_, ?_⟩, htype, hvariant, haddr⟩⟩
    · rw [ListenerKind.describes_of_beq hmatch, hvariant]
    · exact SockInfo.denotes_of_beq hmatch _ haddr

end Systemd

/-! ### A stream listener on a seqpacket socket -/

/-- The path `/s`. -/
def slashS : PathBuf := ⟨[0x2F, 0x73]⟩

/-- systemd passes one unix socket under the name `web`, which has been read. -/
def unixProcess : Systemd where
  proc := ⟨16, fun fd => if fd = 3 then some ⟨7, true⟩ else none, [], []⟩
  child := false
  env := ⟨100, .ok 100, .ok "web"⟩
  sockets := some [("web", 3)]
  listeners := []
  app := []

/-- The socket is of the given type, and bound to `/s`. -/
def boundTo (type : SockType) : Sockets := fun file =>
  if file = 7 then some ⟨type, .unix (some slashS)⟩ else none

/-- A seqpacket listener that reports the pathname of a unix socket. -/
def pathnameOrEmpty : SeqpacketAddr
  | ⟨_, .unix none⟩ => .ok ⟨[]⟩
  | ⟨_, .unix (some path)⟩ => if path.bytes = [] then .error "invalid path" else .ok path
  | _ => .error "not a unix socket"

theorem documented_pathnameOrEmpty : pathnameOrEmpty.Documented := by
  rintro ⟨type, addr⟩ path h
  cases addr with
  | unix pathname =>
    cases pathname with
    | none =>
      cases h
      rfl
    | some path' =>
      simp only [pathnameOrEmpty] at h
      split at h
      · cases h
      · rename_i hne
        cases h
        rw [if_neg hne]
  | inet a => cases h
  | other family => cases h

/-- A call for a unix listener at `/s`. -/
def unixCall : SystemdCall := ⟨"web", .unix, .unix (some slashS), none, none⟩

/-- A stream socket bound to `/s` is what the call asks for. -/
theorem systemd_checks_stream :
    ∃ fd s' li, unixProcess.systemdSockOfProto ((boundTo .stream).report pathnameOrEmpty) unixCall
        = some (.ok fd, s') ∧ s'.proc.usedFds = [li] ∧
      KernelSocket.Genuine ⟨.stream, .unix (some slashS)⟩ .unix li.sockInfo := by
  have hcall : ∃ fd s', unixProcess.systemdSockOfProto
      ((boundTo .stream).report pathnameOrEmpty) unixCall = some (.ok fd, s') := ⟨_, _, rfl⟩
  obtain ⟨fd, s', h⟩ := hcall
  obtain ⟨file, sock, li, -, -, hsock, hused, -, hiff⟩ :=
    Systemd.systemd_checks_iff (boundTo .stream) documented_pathnameOrEmpty rfl h
  have hsame : sock = ⟨.stream, .unix (some slashS)⟩ := by
    unfold boundTo at hsock
    split at hsock
    · exact (Option.some.inj hsock).symm
    · cases hsock
  subst hsame
  exact ⟨fd, s', li, h, hused, (hiff.mpr rfl).2⟩

/-- A seqpacket socket bound to `/s` passes the check too, and is registered as a stream
socket. -/
theorem seqpacket_passes_as_stream :
    ∃ fd s' li, unixProcess.systemdSockOfProto
        ((boundTo .seqpacket).report pathnameOrEmpty) unixCall = some (.ok fd, s') ∧
      s'.proc.usedFds = [li] ∧ (li.sockInfo == .unix (some slashS)) = true ∧
      s'.proc.fileOf li.fd = some 7 ∧
      ∀ sock, boundTo .seqpacket 7 = some sock → ¬sock.Genuine .unix (.unix (some slashS)) := by
  refine ⟨_, _, _, rfl, rfl, by decide, by decide, ?_⟩
  intro sock hsock hgenuine
  cases hsock
  have htype := hgenuine.type
  cases htype
