/-
# Socket descriptions and their equality

The data of `registry.rs`: what a registered socket is (`SockInfo`) and an entry of
the registry (`ListenerInfo`).  The registry finds an inherited socket by comparing
`SockInfo`s with Rust's derived `==`, which goes through the equality of the payloads:
all four fields of an IPv6 socket address, and for paths the equality of their
components, so that `/run//a.sock` and `/run/a.sock` are the same key.  The instance
`BEq SockInfo` is that equality; it is an equivalence, but coarser than `=`.
-/
import Mathlib

/-! ## Paths -/

/-- `PathBuf`: on Unix, any string of bytes. -/
structure PathBuf where
  bytes : List UInt8

namespace PathBuf

/-- `std::path::Component` on Unix. -/
inductive Component
  | rootDir
  | curDir
  | parentDir
  | normal (name : List UInt8)
  deriving DecidableEq

/-- One `/`-separated segment of a path: empty segments and `.` are skipped. -/
def segment (s : List UInt8) : Option Component :=
  if s = [] ∨ s = [0x2E] then none
  else if s = [0x2E, 0x2E] then some .parentDir
  else some (.normal s)

/-- `Path::components`: repeated separators, trailing separators and inner `.`
segments vanish; a leading `.` of a relative path is kept. -/
def components (p : PathBuf) : List Component :=
  let segments := p.bytes.splitOn 0x2F
  let start :=
    if p.bytes.head? = some 0x2F then [.rootDir]
    else if segments.head? = some [0x2E] then [.curDir]
    else []
  start ++ segments.filterMap segment

/-- `PartialEq for PathBuf`. -/
instance : BEq PathBuf := ⟨fun p q => p.components = q.components⟩

theorem beq_iff (p q : PathBuf) : (p == q) = true ↔ p.components = q.components := by
  simp [BEq.beq]

/-- Two optional paths are equal when both are absent or their components agree. -/
theorem option_beq_iff (p q : Option PathBuf) :
    (p == q) = true ↔ p.map components = q.map components := by
  cases p <;> cases q <;> simp [beq_iff]

end PathBuf

/-- Separators may be repeated: `a//b` and `a/b` are the same path. -/
example : (PathBuf.mk [0x61, 0x2F, 0x2F, 0x62] == PathBuf.mk [0x61, 0x2F, 0x62]) = true := by
  decide

/-! ## Socket addresses -/

/-- `SocketAddrV4`. -/
structure SocketAddrV4 where
  ip : Vector UInt8 4
  port : UInt16
  deriving DecidableEq

/-- `SocketAddrV6`, with its flow information and scope identifier. -/
structure SocketAddrV6 where
  ip : Vector UInt8 16
  port : UInt16
  flowinfo : UInt32
  scopeId : UInt32
  deriving DecidableEq

/-- `SocketAddr`. -/
inductive SocketAddr
  | v4 (addr : SocketAddrV4)
  | v6 (addr : SocketAddrV6)
  deriving DecidableEq

/-! ## Registry entries -/

/-- `SockInfo`, in the order of its variants. -/
inductive SockInfo
  | unix (path : Option PathBuf)
  | tcp (addr : SocketAddr)
  | udp (addr : SocketAddr)
  | unboundUnixDatagram (name : String)
  | unixSeqpacket (path : Option PathBuf)

namespace SockInfo

/-- The derived `PartialEq for SockInfo`. -/
def beq : SockInfo → SockInfo → Bool
  | .unix p, .unix q => p == q
  | .tcp a, .tcp b => a == b
  | .udp a, .udp b => a == b
  | .unboundUnixDatagram n, .unboundUnixDatagram m => n == m
  | .unixSeqpacket p, .unixSeqpacket q => p == q
  | _, _ => false

instance : BEq SockInfo := ⟨beq⟩

/-- A datagram pair, as opposed to a listener. -/
def isDatagram : SockInfo → Bool
  | .unboundUnixDatagram _ => true
  | _ => false

/-- What the equality of `SockInfo`s looks at: the variant and its payload, paths
being taken up to their components. -/
inductive Key
  | unix (path : Option (List PathBuf.Component))
  | tcp (addr : SocketAddr)
  | udp (addr : SocketAddr)
  | unboundUnixDatagram (name : String)
  | unixSeqpacket (path : Option (List PathBuf.Component))
  deriving DecidableEq

/-- The key of a `SockInfo`. -/
def key : SockInfo → Key
  | .unix p => .unix (p.map PathBuf.components)
  | .tcp a => .tcp a
  | .udp a => .udp a
  | .unboundUnixDatagram n => .unboundUnixDatagram n
  | .unixSeqpacket p => .unixSeqpacket (p.map PathBuf.components)

/-- **Equality of `SockInfo`s is equality of their keys.** -/
theorem beq_iff_key (k l : SockInfo) : (k == l) = true ↔ k.key = l.key := by
  cases k <;> cases l <;> simp [BEq.beq, beq, key] <;> exact PathBuf.option_beq_iff _ _

instance : EquivBEq SockInfo where
  symm := fun h => by
    rw [beq_iff_key] at h ⊢
    exact h.symm
  trans := fun h h' => by
    rw [beq_iff_key] at h h' ⊢
    exact h.trans h'
  rfl := by
    intro k
    rw [beq_iff_key]

/-- Equal `SockInfo`s are of the same kind. -/
theorem isDatagram_of_beq {k l : SockInfo} (h : (k == l) = true) :
    k.isDatagram = l.isDatagram := by
  cases k <;> cases l <;> first | rfl | cases h

end SockInfo

/-- `RawFd`, a 32-bit signed integer. -/
abbrev RawFd := Int32

/-- `ListenerInfo`: a descriptor and what it is a socket for. -/
structure ListenerInfo where
  fd : RawFd
  sockInfo : SockInfo
