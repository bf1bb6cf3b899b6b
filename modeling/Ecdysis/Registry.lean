/-
# The listener registry

The faithful model of `registry.rs`, of the descriptor functions of `utils.rs` and of
the socket methods of `Ecdysis` (`lib.rs`).  A process (`Proc`) has a descriptor table
and a registry of two lists: `inheritedFds`, received from the parent and not claimed
yet, and `usedFds`, the duplicates kept for the next child.

What the operating system decides is an argument of the operations: whether a socket
can be made and which number, open file and address it gets (`Creation`), and whether
the third-party `from_raw_fd` of a seqpacket listener accepts a descriptor (`adopt`).
The duplicate of a descriptor is the lowest free number not below the lower bound the
code passes, which is the number itself, and below the limit of the process.

An operation that may panic returns an `Option`; `none` is the panic.
-/
import Ecdysis.DescriptorTable
import Ecdysis.HandoverMessage

/-! ## Processes and their descriptors -/

/-- An open descriptor: the file it refers to and its close-on-exec flag. -/
structure Desc where
  file : ℕ
  cloexec : Bool
  deriving DecidableEq

/-- The descriptor table of a process. -/
abbrev Table := DescriptorTable RawFd Desc

/-- A process: its descriptor limit, its table and its `ListenerRegistry`. -/
structure Proc where
  limit : ℕ
  table : Table
  inheritedFds : List ListenerInfo
  usedFds : List ListenerInfo

/-- The errors of `fcntl` that matter here. -/
inductive Errno
  | badf
  | inval
  | mfile
  deriving DecidableEq

/-- The numbers below the limit, in ascending order. -/
def slots (limit : ℕ) : List RawFd := (List.range limit).map Int32.ofNat

namespace Proc

/-- The open file a number refers to. -/
def fileOf (p : Proc) (fd : RawFd) : Option ℕ := (p.table fd).map Desc.file

/-- The numbers the registry holds. -/
def registered (p : Proc) : List RawFd := (p.inheritedFds ++ p.usedFds).map ListenerInfo.fd

/-- The number `fd` comes to refer to `d`. -/
def openFd (p : Proc) (fd : RawFd) (d : Desc) : Proc := { p with table := p.table.assign fd d }

/-- `clone_fd`: the duplicate gets the lowest free number that is not below
`to_clone` itself, and is close-on-exec.  A lower bound at or above the limit is
refused as such. -/
def cloneFd (p : Proc) (toClone : RawFd) : Except Errno (RawFd × Proc) :=
  match p.table toClone with
  | none => .error .badf
  | some d =>
    match p.table.lowestFree (slots p.limit) toClone with
    | none => .error (if toClone ∈ slots p.limit then .mfile else .inval)
    -- the flag of the duplicate is set whatever that of the original is
    | some newFd => .ok (newFd, p.openFd newFd { d with cloexec := true })

/-- `set_cloexec`, which panics on a number that is not open. -/
def setCloexec (p : Proc) (fd : RawFd) : Option Proc :=
  (p.table fd).map fun d => p.openFd fd { d with cloexec := true }

/-- `close_fd_quiet`. -/
def closeFdQuiet (p : Proc) (fd : RawFd) : Proc := { p with table := p.table.close fd }

/-! ## The registry -/

/-- `ListenerRegistry::take`. -/
def take (p : Proc) (k : SockInfo) : Option (Option RawFd × Proc) :=
  match p.inheritedFds.find? fun li => li.sockInfo == k with
  | some li =>
    let p' := { p with inheritedFds := p.inheritedFds.eraseP fun li => li.sockInfo == k }
    (p'.setCloexec li.fd).map fun q => (some li.fd, q)
  | none => some (none, p)

/-- `ListenerRegistry::add`. -/
def add (p : Proc) (item : ListenerInfo) : Except Errno Proc :=
  match p.cloneFd item.fd with
  | .error e => .error e
  | .ok (newFd, q) => .ok { q with usedFds := q.usedFds ++ [⟨newFd, item.sockInfo⟩] }

/-- `ListenerRegistry::inherit`: a failure of `add` is turned into `None`. -/
def inherit (p : Proc) (k : SockInfo) : Option (Option RawFd × Proc) :=
  match p.take k with
  | none => none
  | some (none, q) => some (none, q)
  | some (some fd, q) =>
    match q.add ⟨fd, k⟩ with
    | .ok q' => some (some fd, q')
    -- the entry has been removed and its number stays open, but nobody gets it
    | .error _ => some (none, q)

/-- `ListenerRegistry::close_used`. -/
def closeUsed (p : Proc) : Proc :=
  { p with table := p.table.closeAll (p.usedFds.map ListenerInfo.fd), usedFds := [] }

/-- `ListenerRegistry::close_inherited`. -/
def closeInherited (p : Proc) : Proc :=
  { p with table := p.table.closeAll (p.inheritedFds.map ListenerInfo.fd), inheritedFds := [] }

/-- `ListenerRegistry::get_fds_for_child`. -/
def getFdsForChild (p : Proc) : List ListenerInfo := p.usedFds

end Proc

/-! ## The socket methods -/

/-- What becomes of making a new socket and describing it with `info`: it fails, and
whatever was opened has been closed, or there is a listener with number `fd` for the
open file `file`, at the address the system reports. -/
inductive Creation (α : Type)
  | failed (msg : String)
  | created (fd : RawFd) (file : ℕ) (addr : α)

/-- Change what is reported. -/
def Creation.map {α β : Type} (f : α → β) : Creation α → Creation β
  | .failed msg => .failed msg
  | .created fd file addr => .created fd file (f addr)

/-- How a socket method came by its socket. -/
inductive Origin
  | inherited
  | created
  deriving DecidableEq

/-- Why a socket method fails: the socket cannot be made, cannot be registered, or
`from_raw_fd` refuses the inherited number. -/
inductive ListenError
  | create (msg : String)
  | register (e : Errno)
  | adopt
  deriving DecidableEq

/-- The result of a socket method. -/
abbrev Listened := Except ListenError (Origin × RawFd)

namespace Proc

/-- The common shape of the four methods: claim an inherited socket under the key of
the request, or make a new one and register it under what the system reports.  A
listener that cannot be returned is dropped, which closes its number. -/
def listenWith (p : Proc) (k : SockInfo) (c : Creation SockInfo) (adopt : Bool) :
    Option (Listened × Proc) :=
  match p.inherit k with
  | none => none
  | some (some fd, q) =>
    if adopt then some (.ok (.inherited, fd), q)
    else some (.error .adopt, q.closeFdQuiet fd)
  | some (none, q) =>
    match c with
    | .failed msg => some (.error (.create msg), q)
    | .created fd file info =>
      let q' := q.openFd fd ⟨file, true⟩
      match q'.add ⟨fd, info⟩ with
      | .ok r => some (.ok (.created, fd), r)
      | .error e => some (.error (.register e), q'.closeFdQuiet fd)

/-- `Ecdysis::listen_unix`. -/
def listenUnix (p : Proc) (path : PathBuf) (c : Creation (Option PathBuf)) :
    Option (Listened × Proc) :=
  p.listenWith (.unix (some path)) (c.map .unix) true

/-- `Ecdysis::listen_unix_seqpacket`. -/
def listenUnixSeqpacket (p : Proc) (path : PathBuf) (c : Creation PathBuf) (adopt : Bool) :
    Option (Listened × Proc) :=
  p.listenWith (.unixSeqpacket (some path)) (c.map fun a => .unixSeqpacket (some a)) adopt

/-- `Ecdysis::build_listen_tcp`; `listen_tcp` is the case of a closure that binds and
listens. -/
def buildListenTcp (p : Proc) (addr : SocketAddr) (c : Creation SocketAddr) :
    Option (Listened × Proc) :=
  p.listenWith (.tcp addr) (c.map .tcp) true

/-- `Ecdysis::build_socket_udp`. -/
def buildSocketUdp (p : Proc) (addr : SocketAddr) (c : Creation SocketAddr) :
    Option (Listened × Proc) :=
  p.listenWith (.udp addr) (c.map .udp) true

end Proc

/-- What becomes of `UnixDatagram::pair`: it fails, or it makes two connected ends. -/
inductive Pair
  | failed (msg : String)
  | made (toChild childs : RawFd) (file file' : ℕ)

/-- `Ecdysis::unix_datagram_pair`: what the parent left under the name, if anything,
and one end of a new pair, the other end of which is registered for the child and
then dropped. -/
def Proc.unixDatagramPair (p : Proc) (name : String) (c : Pair) :
    Option ((Option RawFd × Except ListenError RawFd) × Proc) :=
  match p.take (.unboundUnixDatagram name) with
  | none => none
  | some (toParent, q) =>
    match c with
    | .failed msg => some ((toParent, .error (.create msg)), q)
    | .made toChild childs file file' =>
      let q' := (q.openFd toChild ⟨file, true⟩).openFd childs ⟨file', true⟩
      match q'.add ⟨childs, .unboundUnixDatagram name⟩ with
      -- the registry keeps a duplicate of the child's end, the end itself is dropped
      | .ok r => some ((toParent, .ok toChild), r.closeFdQuiet childs)
      | .error e =>
        some ((toParent, .error (.register e)), (q'.closeFdQuiet childs).closeFdQuiet toChild)

/-- Why the method of `TokioEcdysis` fails: as the one of `Ecdysis`, or because a socket
cannot be turned into one of the runtime's. -/
inductive TokioError
  | inner (e : ListenError)
  | convert (msg : String)
  deriving DecidableEq

namespace Proc

/-- The closure `from_std` of `TokioEcdysis::unix_datagram_pair`, with the error of
`set_nonblocking` or of the runtime, if there is one; a socket that cannot be turned into
one of the runtime's is dropped. -/
def fromStd (p : Proc) (fd : RawFd) (err : Option String) : Except TokioError RawFd × Proc :=
  match err with
  | none => (.ok fd, p)
  | some msg => (.error (.convert msg), p.closeFdQuiet fd)

/-- `unix_datagram_to_parent_option.map(from_std)`. -/
def mapFromStd (p : Proc) (toParent : Option RawFd) (err : Option String) :
    Option (Except TokioError RawFd) × Proc :=
  match toParent with
  | none => (none, p)
  | some fd => (some (p.fromStd fd err).1, (p.fromStd fd err).2)

/-- `unix_datagram_to_child_result.and_then(from_std)`. -/
def andThenFromStd (p : Proc) (toChild : Except ListenError RawFd) (err : Option String) :
    Except TokioError RawFd × Proc :=
  match toChild with
  | .error e => (.error (.inner e), p)
  -- the child's end has been registered by now, and stays so
  | .ok fd => p.fromStd fd err

/-- `TokioEcdysis::unix_datagram_pair`, with what becomes of turning the two sockets into
the runtime's. -/
def tokioUnixDatagramPair (p : Proc) (name : String) (c : Pair)
    (errToParent errToChild : Option String) :
    Option ((Option (Except TokioError RawFd) × Except TokioError RawFd) × Proc) :=
  (p.unixDatagramPair name c).map fun (res, q) =>
    let toParent := q.mapFromStd res.1 errToParent
    let toChild := toParent.2.andThenFromStd res.2 errToChild
    ((toParent.1, toChild.1), toChild.2)

end Proc

/-- A call of one of the four listening methods, with what the system makes of it. -/
inductive Request
  | unix (path : PathBuf) (c : Creation (Option PathBuf))
  | unixSeqpacket (path : PathBuf) (c : Creation PathBuf) (adopt : Bool)
  | tcp (addr : SocketAddr) (c : Creation SocketAddr)
  | udp (addr : SocketAddr) (c : Creation SocketAddr)

namespace Request

/-- The description a request looks for among the inherited sockets. -/
def key : Request → SockInfo
  | .unix path _ => .unix (some path)
  | .unixSeqpacket path _ _ => .unixSeqpacket (some path)
  | .tcp addr _ => .tcp addr
  | .udp addr _ => .udp addr

/-- The new socket of a request, as `info` describes it. -/
def creation : Request → Creation SockInfo
  | .unix _ c => c.map .unix
  | .unixSeqpacket _ c _ => c.map fun a => .unixSeqpacket (some a)
  | .tcp _ c => c.map .tcp
  | .udp _ c => c.map .udp

/-- Whether `from_raw_fd` accepts an inherited number; the standard library's does. -/
def adopt : Request → Bool
  | .unixSeqpacket _ _ a => a
  | _ => true

end Request

/-- Carry out a request. -/
def Proc.listen (p : Proc) : Request → Option (Listened × Proc)
  | .unix path c => p.listenUnix path c
  | .unixSeqpacket path c adopt => p.listenUnixSeqpacket path c adopt
  | .tcp addr c => p.buildListenTcp addr c
  | .udp addr c => p.buildSocketUdp addr c

/-- The four methods are one, up to key, report and adoption. -/
theorem Proc.listen_eq (p : Proc) (r : Request) :
    p.listen r = p.listenWith r.key r.creation r.adopt := by
  cases r <;> rfl

/-! ## Passing the table to a child -/

/-- `unset_cloexec`, which panics on a number that is not open. -/
def Table.unsetCloexec (t : Table) (fd : RawFd) : Option Table :=
  (t fd).map fun d => t.assign fd { d with cloexec := false }

/-- The closure `pre_exec` of `exec_upgraded`, run in the forked process. -/
def Table.preExec (t : Table) : List ListenerInfo → Option Table
  | [] => some t
  | li :: fds => (t.unsetCloexec li.fd).bind fun t' => t'.preExec fds

/-- What `exec` leaves of a table: the descriptors that are not close-on-exec, under
the same numbers. -/
def Table.exec (t : Table) : Table := fun fd => (t fd).filter fun d => !d.cloexec

/-- A child started with the list `fds`, after `init_child`: it has what its parent's
table held and what it could read of the list.  There is no such child when
`pre_exec` panics or the list cannot be written or read. -/
def Proc.spawnChild (p : Proc) (fds : List ListenerInfo) : Option Proc :=
  (p.table.preExec fds).bind fun t =>
    (serializeInto fds).bind fun bs =>
      (deserializeFrom bs).map fun inherited => ⟨p.limit, t.exec, inherited, []⟩

/-! ## What the operations do -/

namespace Proc

variable {p q : Proc} {fd newFd : RawFd} {k : SockInfo} {item : ListenerInfo}

/-- What a successful duplication does. -/
theorem cloneFd_eq_ok (h : p.cloneFd fd = .ok (newFd, q)) :
    ∃ d, p.table fd = some d ∧ newFd ∈ slots p.limit ∧ fd ≤ newFd ∧ p.table newFd = none ∧
      q = p.openFd newFd { d with cloexec := true } := by
  unfold cloneFd at h
  split at h
  · cases h
  · rename_i d hd
    split at h
    · cases h
    · rename_i n hn
      cases h
      obtain ⟨hslot, hle, hfree⟩ := DescriptorTable.lowestFree_spec hn
      exact ⟨d, hd, hslot, hle, hfree, rfl⟩

/-- What a successful `add` does. -/
theorem add_eq_ok (h : p.add item = .ok q) :
    ∃ n d, p.table item.fd = some d ∧ n ∈ slots p.limit ∧ item.fd ≤ n ∧ p.table n = none ∧
      q = { p.openFd n { d with cloexec := true } with
        usedFds := p.usedFds ++ [⟨n, item.sockInfo⟩] } := by
  unfold add at h
  split at h
  · cases h
  · rename_i n q' hclone
    cases h
    obtain ⟨d, hd, hslot, hle, hfree, rfl⟩ := cloneFd_eq_ok hclone
    exact ⟨n, d, hd, hslot, hle, hfree, rfl⟩

/-- What `take` does when it finds an entry, and when it does not. -/
theorem take_eq_some {r : Option RawFd} (h : p.take k = some (r, q)) :
    (p.inheritedFds.find? (fun li => li.sockInfo == k) = none ∧ r = none ∧ q = p) ∨
    ∃ li d, p.inheritedFds.find? (fun li => li.sockInfo == k) = some li ∧ r = some li.fd ∧
      p.table li.fd = some d ∧
      q = { p.openFd li.fd { d with cloexec := true } with
        inheritedFds := p.inheritedFds.eraseP fun li => li.sockInfo == k } := by
  unfold take at h
  split at h
  · rename_i li hli
    obtain ⟨q', hset, heq⟩ := Option.map_eq_some_iff.mp h
    obtain ⟨d, hd, rfl⟩ := Option.map_eq_some_iff.mp hset
    cases heq
    exact .inr ⟨li, d, hli, rfl, hd, rfl⟩
  · rename_i hnone
    cases h
    exact .inl ⟨hnone, rfl, rfl⟩

/-- The three outcomes of `inherit`: nothing under the key; the claimed entry is
registered anew; its duplication fails and the entry is gone. -/
theorem inherit_eq_some {r : Option RawFd} (h : p.inherit k = some (r, q)) :
    (r = none ∧ q = p ∧ p.take k = some (none, p)) ∨
    (∃ fd q', p.take k = some (some fd, q') ∧ q'.add ⟨fd, k⟩ = .ok q ∧ r = some fd) ∨
    (∃ fd e, p.take k = some (some fd, q) ∧ q.add ⟨fd, k⟩ = .error e ∧ r = none) := by
  unfold inherit at h
  split at h
  · cases h
  · rename_i q' htake
    cases h
    rcases take_eq_some htake with ⟨_, _, rfl⟩ | ⟨li, d, _, hr, _⟩
    · exact .inl ⟨rfl, rfl, htake⟩
    · cases hr
  · rename_i fd q' htake
    split at h
    · rename_i q'' hadd
      cases h
      exact .inr (.inl ⟨fd, q', htake, hadd, rfl⟩)
    · rename_i e hadd
      cases h
      exact .inr (.inr ⟨fd, e, htake, hadd, rfl⟩)

/-- The outcomes of a listening method. -/
theorem listenWith_eq_some {c : Creation SockInfo} {adopt : Bool} {res : Listened}
    (h : p.listenWith k c adopt = some (res, q)) :
    (∃ fd q', p.inherit k = some (some fd, q') ∧
      ((adopt = true ∧ res = .ok (.inherited, fd) ∧ q = q') ∨
        (adopt = false ∧ res = .error .adopt ∧ q = q'.closeFdQuiet fd))) ∨
    (∃ q', p.inherit k = some (none, q') ∧
      ((∃ msg, c = .failed msg ∧ res = .error (.create msg) ∧ q = q') ∨
        ∃ fd file info, c = .created fd file info ∧
          let q'' := q'.openFd fd ⟨file, true⟩
          (q''.add ⟨fd, info⟩ = .ok q ∧ res = .ok (.created, fd)) ∨
            ∃ e, q''.add ⟨fd, info⟩ = .error e ∧ res = .error (.register e) ∧
              q = q''.closeFdQuiet fd)) := by
  unfold listenWith at h
  split at h
  · cases h
  · rename_i fd q' hinh
    left
    refine ⟨fd, q', hinh, ?_⟩
    cases adopt <;> cases h <;> simp
  · rename_i q' hinh
    right
    refine ⟨q', hinh, ?_⟩
    cases c with
    | failed msg =>
      cases h
      exact .inl ⟨msg, rfl, rfl, rfl⟩
    | created fd file info =>
      right
      refine ⟨fd, file, info, rfl, ?_⟩
      simp only at h ⊢
      split at h
      · rename_i r hadd
        cases h
        exact .inl ⟨hadd, rfl⟩
      · rename_i e hadd
        cases h
        exact .inr ⟨e, hadd, rfl, rfl⟩

/-- The outcomes of `unix_datagram_pair`. -/
theorem unixDatagramPair_eq_some {name : String} {c : Pair}
    {res : Option RawFd × Except ListenError RawFd}
    (h : p.unixDatagramPair name c = some (res, q)) :
    ∃ r q', p.take (.unboundUnixDatagram name) = some (r, q') ∧
      ((∃ msg, c = .failed msg ∧ res = (r, .error (.create msg)) ∧ q = q') ∨
        ∃ toChild childs file file', c = .made toChild childs file file' ∧
          let q'' := (q'.openFd toChild ⟨file, true⟩).openFd childs ⟨file', true⟩
          (∃ q₁, q''.add ⟨childs, .unboundUnixDatagram name⟩ = .ok q₁ ∧
            res = (r, .ok toChild) ∧ q = q₁.closeFdQuiet childs) ∨
          ∃ e, q''.add ⟨childs, .unboundUnixDatagram name⟩ = .error e ∧
            res = (r, .error (.register e)) ∧
            q = (q''.closeFdQuiet childs).closeFdQuiet toChild) := by
  unfold unixDatagramPair at h
  split at h
  · cases h
  · rename_i r q' htake
    refine ⟨r, q', htake, ?_⟩
    cases c with
    | failed msg =>
      cases h
      exact .inl ⟨msg, rfl, rfl, rfl⟩
    | made toChild childs file file' =>
      right
      refine ⟨toChild, childs, file, file', rfl, ?_⟩
      simp only at h ⊢
      split at h
      · rename_i q₁ hadd
        cases h
        exact .inl ⟨q₁, hadd, rfl, rfl⟩
      · rename_i e hadd
        cases h
        exact .inr ⟨e, hadd, rfl, rfl⟩

/-! ### What the operations do to the lists -/

/-- `add` enters one entry in use. -/
theorem lists_add (h : p.add item = .ok q) :
    q.inheritedFds = p.inheritedFds ∧ ∃ n, q.usedFds = p.usedFds ++ [⟨n, item.sockInfo⟩] := by
  obtain ⟨n, d, -, -, -, -, rfl⟩ := add_eq_ok h
  exact ⟨rfl, n, rfl⟩

/-- `take` removes the first inherited entry under its key, if there is one. -/
theorem lists_take {r : Option RawFd} (h : p.take k = some (r, q)) :
    q.inheritedFds = p.inheritedFds.eraseP (fun li => li.sockInfo == k) ∧
      q.usedFds = p.usedFds := by
  rcases take_eq_some h with ⟨hnone, -, rfl⟩ | ⟨li, d, -, -, -, rfl⟩
  · exact ⟨(List.eraseP_of_forall_not (by simpa using hnone)).symm, rfl⟩
  · exact ⟨rfl, rfl⟩

/-- So does `inherit`, which enters the duplicate if there is one. -/
theorem lists_inherit {r : Option RawFd} (h : p.inherit k = some (r, q)) :
    q.inheritedFds = p.inheritedFds.eraseP (fun li => li.sockInfo == k) ∧
      if r.isSome then ∃ n, q.usedFds = p.usedFds ++ [⟨n, k⟩] else q.usedFds = p.usedFds := by
  rcases inherit_eq_some h with ⟨rfl, rfl, htake⟩ | ⟨fd, q', htake, hadd, rfl⟩ |
    ⟨fd, e, htake, -, rfl⟩
  · exact lists_take htake
  · obtain ⟨hinh, hused⟩ := lists_take htake
    obtain ⟨hinh', hadded⟩ := lists_add hadd
    rw [hused] at hadded
    exact ⟨hinh'.trans hinh, hadded⟩
  · exact lists_take htake

/-- `unix_datagram_pair` enters the end of the child when it succeeds. -/
theorem usedFds_unixDatagramPair {name : String} {c : Pair} {x : Option RawFd}
    {y : Except ListenError RawFd} (h : p.unixDatagramPair name c = some ((x, y), q)) :
    (∃ fd n, y = .ok fd ∧ q.usedFds = p.usedFds ++ [⟨n, .unboundUnixDatagram name⟩]) ∨
    ((∃ e, y = .error e) ∧ q.usedFds = p.usedFds) := by
  obtain ⟨r, q', htake, hor⟩ := unixDatagramPair_eq_some h
  have hused := (lists_take htake).2
  rcases hor with ⟨msg, -, hres, rfl⟩ |
    ⟨toChild, childs, file, file', -, ⟨q₁, hadd, hres, rfl⟩ | ⟨e, -, hres, rfl⟩⟩ <;>
  cases hres
  · exact .inr ⟨⟨_, rfl⟩, hused⟩
  · obtain ⟨-, n, hadded⟩ := lists_add hadd
    refine .inl ⟨toChild, n, rfl, ?_⟩
    rw [← hused]
    exact hadded
  · exact .inr ⟨⟨_, rfl⟩, hused⟩

end Proc
