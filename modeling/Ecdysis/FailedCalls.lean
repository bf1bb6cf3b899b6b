/-
# What a failed call leaves behind

The listening methods of `Ecdysis` and their wrappers in `TokioEcdysis`, with what they do
outside the process: a bound socket has an address for as long as it is open, and a unix
socket has a file that stays on disk when the socket is gone.  A call claims an inherited
socket or binds a new one, registers it and, in the wrappers, turns it into one of the
runtime's, and returns early when one of these steps fails.

`retry_iff`: a call that fails leaves everything as it was, so that it can be made again,
exactly when it found nothing under its key, made no socket file and got no duplicate into
the registry.
-/
import Ecdysis.Encodable

/-! ## Processes and the system around them -/

/-- A process, the address each open file is bound to, and the socket files on disk. -/
structure Station where
  proc : Proc
  addressOf : ℕ → Option SockInfo
  socketFiles : List PathBuf

/-- What becomes of making a new socket: it cannot be bound; it is bound, and then `listen`
or `local_addr` fails and it is dropped; or there is a listener with number `fd` for the new
file `file`, at the address the system reports. -/
inductive Making (α : Type)
  | refused (msg : String)
  | lost (msg : String)
  | made (fd : RawFd) (file : ℕ) (addr : α)

namespace Making

/-- Change what is reported. -/
def map {α β : Type} (f : α → β) : Making α → Making β
  | .refused msg => .refused msg
  | .lost msg => .lost msg
  | .made fd file addr => .made fd file (f addr)

/-- What the process sees of it. -/
def creation : Making SockInfo → Creation SockInfo
  | .refused msg => .failed msg
  | .lost msg => .failed msg
  | .made fd file info => .created fd file info

/-- The socket has been bound. -/
def bound : Making SockInfo → Bool
  | .refused _ => false
  | .lost _ => true
  | .made _ _ _ => true

end Making

namespace Station

/-- The addresses bound by the sockets the process has open. -/
def addresses (s : Station) : Set SockInfo :=
  {a | ∃ fd d, s.proc.table fd = some d ∧ s.addressOf d.file = some a}

/-- What `bind` leaves: the address of the new file, and a socket file if the address is a
path. -/
def bind (s : Station) (path : Option PathBuf) : Making SockInfo → Station
  | .refused _ => s
  | .lost _ => { s with socketFiles := s.socketFiles ++ path.toList }
  | .made _ file info =>
    { s with
      addressOf := Function.update s.addressOf file (some info)
      socketFiles := s.socketFiles ++ path.toList }

/-- The common shape of the methods of `Ecdysis`.  `bind` is called only when nothing is
inherited. -/
def listenWith (s : Station) (k : SockInfo) (path : Option PathBuf) (m : Making SockInfo)
    (adopt : Bool) : Option (Listened × Station) :=
  (s.proc.listenWith k m.creation adopt).map fun (res, q) =>
    (res, { (if s.proc.claims k then s else s.bind path m) with proc := q })

/-- The file `UnixListener::bind` makes: there is none for the empty path. -/
def unixFile (path : PathBuf) : Option PathBuf := if path.bytes = [] then none else some path

/-- The file `UnixSeqpacketListener::bind` makes, if the path can name one. -/
def seqpacketFile (path : PathBuf) : Option PathBuf := if path.named then some path else none

/-- `Ecdysis::listen_unix`. -/
def listenUnix (s : Station) (path : PathBuf) (m : Making (Option PathBuf)) :
    Option (Listened × Station) :=
  s.listenWith (.unix (some path)) (unixFile path) (m.map .unix) true

/-- `Ecdysis::listen_unix_seqpacket`. -/
def listenUnixSeqpacket (s : Station) (path : PathBuf) (m : Making PathBuf) (adopt : Bool) :
    Option (Listened × Station) :=
  s.listenWith (.unixSeqpacket (some path)) (seqpacketFile path)
    (m.map fun a => .unixSeqpacket (some a)) adopt

/-- `Ecdysis::build_listen_tcp`. -/
def buildListenTcp (s : Station) (addr : SocketAddr) (m : Making SocketAddr) :
    Option (Listened × Station) :=
  s.listenWith (.tcp addr) none (m.map .tcp) true

/-- `Ecdysis::build_socket_udp`. -/
def buildSocketUdp (s : Station) (addr : SocketAddr) (m : Making SocketAddr) :
    Option (Listened × Station) :=
  s.listenWith (.udp addr) none (m.map .udp) true

/-- `set_nonblocking` and `from_std` of the wrappers, with the error of one of them, if there
is one; a socket that cannot be turned into one of the runtime's is dropped. -/
def fromStd (err : Option String) : Listened × Station → Except TokioError RawFd × Station
  | (res, s) =>
    let x := s.proc.andThenFromStd (res.map Prod.snd) err
    (x.1, { s with proc := x.2 })

/-- `TokioEcdysis::listen_unix`. -/
def tokioListenUnix (s : Station) (path : PathBuf) (m : Making (Option PathBuf))
    (err : Option String) : Option (Except TokioError RawFd × Station) :=
  (s.listenUnix path m).map (fromStd err)

/-- `TokioEcdysis::listen_unix_seqpacket`, whose listener is the runtime's already. -/
def tokioListenUnixSeqpacket (s : Station) (path : PathBuf) (m : Making PathBuf) (adopt : Bool) :
    Option (Except TokioError RawFd × Station) :=
  (s.listenUnixSeqpacket path m adopt).map (fromStd none)

/-- `TokioEcdysis::build_listen_tcp`. -/
def tokioBuildListenTcp (s : Station) (addr : SocketAddr) (m : Making SocketAddr)
    (err : Option String) : Option (Except TokioError RawFd × Station) :=
  (s.buildListenTcp addr m).map (fromStd err)

/-- `TokioEcdysis::build_socket_udp`, and with it `build_stream_udp`, which makes a stream of
the socket. -/
def tokioBuildSocketUdp (s : Station) (addr : SocketAddr) (m : Making SocketAddr)
    (err : Option String) : Option (Except TokioError RawFd × Station) :=
  (s.buildSocketUdp addr m).map (fromStd err)

end Station

/-- A call of one of the methods, with what the system makes of it. -/
inductive ListenCall
  | listenUnix (path : PathBuf) (m : Making (Option PathBuf))
  | buildListenTcp (addr : SocketAddr) (m : Making SocketAddr)
  | buildSocketUdp (addr : SocketAddr) (m : Making SocketAddr)
  | tokioListenUnix (path : PathBuf) (m : Making (Option PathBuf)) (err : Option String)
  | tokioListenUnixSeqpacket (path : PathBuf) (m : Making PathBuf) (adopt : Bool)
  | tokioBuildListenTcp (addr : SocketAddr) (m : Making SocketAddr) (err : Option String)
  | tokioBuildStreamUdp (addr : SocketAddr) (m : Making SocketAddr) (err : Option String)

namespace ListenCall

/-- The description the call looks for. -/
def key : ListenCall → SockInfo
  | .listenUnix path _ | .tokioListenUnix path _ _ => .unix (some path)
  | .tokioListenUnixSeqpacket path _ _ => .unixSeqpacket (some path)
  | .buildListenTcp addr _ | .tokioBuildListenTcp addr _ _ => .tcp addr
  | .buildSocketUdp addr _ | .tokioBuildStreamUdp addr _ _ => .udp addr

/-- The socket file a new socket of the call has. -/
def path : ListenCall → Option PathBuf
  | .listenUnix path _ | .tokioListenUnix path _ _ => Station.unixFile path
  | .tokioListenUnixSeqpacket path _ _ => Station.seqpacketFile path
  | _ => none

/-- The new socket of the call, as `info` describes it. -/
def making : ListenCall → Making SockInfo
  | .listenUnix _ m | .tokioListenUnix _ m _ => m.map .unix
  | .tokioListenUnixSeqpacket _ m _ => m.map fun a => .unixSeqpacket (some a)
  | .buildListenTcp _ m | .tokioBuildListenTcp _ m _ => m.map .tcp
  | .buildSocketUdp _ m | .tokioBuildStreamUdp _ m _ => m.map .udp

/-- Whether `from_raw_fd` accepts an inherited number. -/
def adopt : ListenCall → Bool
  | .tokioListenUnixSeqpacket _ _ adopt => adopt
  | _ => true

/-- The error of turning the socket into one of the runtime's. -/
def err : ListenCall → Option String
  | .tokioListenUnix _ _ err | .tokioBuildListenTcp _ _ err | .tokioBuildStreamUdp _ _ err => err
  | _ => none

end ListenCall

namespace Station

/-- Carry out a call. -/
def perform (s : Station) : ListenCall → Option (Except TokioError RawFd × Station)
  | .listenUnix path m => (s.listenUnix path m).map (fromStd none)
  | .buildListenTcp addr m => (s.buildListenTcp addr m).map (fromStd none)
  | .buildSocketUdp addr m => (s.buildSocketUdp addr m).map (fromStd none)
  | .tokioListenUnix path m err => s.tokioListenUnix path m err
  | .tokioListenUnixSeqpacket path m adopt => s.tokioListenUnixSeqpacket path m adopt
  | .tokioBuildListenTcp addr m err => s.tokioBuildListenTcp addr m err
  | .tokioBuildStreamUdp addr m err => s.tokioBuildSocketUdp addr m err

/-- The methods are one, up to key, file, report, adoption and conversion. -/
theorem perform_eq (s : Station) (c : ListenCall) :
    s.perform c = (s.listenWith c.key c.path c.making c.adopt).map (fromStd c.err) := by
  cases c <;> rfl

end Station

/-! ## What a call does to the lists -/

namespace Proc

variable {p q : Proc} {k : SockInfo} {fd : RawFd} {d : Desc}

/-- A listening method removes the first entry under its key, if there is one, whatever
becomes of it. -/
theorem inheritedFds_listenWith {c : Creation SockInfo} {adopt : Bool} {res : Listened}
    (h : p.listenWith k c adopt = some (res, q)) :
    q.inheritedFds = p.inheritedFds.eraseP fun li => li.sockInfo == k := by
  rcases listenWith_eq_some h with
    ⟨fd, q', hinh, ⟨_, _, rfl⟩ | ⟨_, _, rfl⟩⟩ |
    ⟨q', hinh, ⟨msg, _, _, rfl⟩ | ⟨fd, file, info, _, ⟨hadd, _⟩ | ⟨e, _, _, rfl⟩⟩⟩ <;>
  have hq' := (lists_inherit hinh).1
  · exact hq'
  · exact hq'
  · exact hq'
  · rw [(lists_add hadd).1]
    exact hq'
  · exact hq'

/-- Without an entry under its key, a method makes its own socket. -/
theorem inherit_of_absent (h : ∀ li ∈ p.inheritedFds, (li.sockInfo == k) = false) :
    p.inherit k = some (none, p) := by
  have hfind : p.inheritedFds.find? (fun li => li.sockInfo == k) = none := by simpa using h
  simp [inherit, take, hfind]

/-- A new number cannot be registered exactly when no other number is free above it. -/
theorem isNone_lowestFree (p : Proc) (fd : RawFd) (d : Desc) (k : SockInfo) :
    ((p.table.assign fd d).lowestFree (slots p.limit) fd).isNone
      = !((p.openFd fd d).add ⟨fd, k⟩).isOk := by
  have hopen : (p.openFd fd d).table fd = some d := by simp [openFd]
  simp only [add, cloneFd, hopen]
  show ((p.openFd fd d).table.lowestFree (slots (p.openFd fd d).limit) fd).isNone = _
  cases (p.openFd fd d).table.lowestFree (slots (p.openFd fd d).limit) fd <;> rfl

/-- Opening a free number and closing it again changes nothing. -/
theorem closeFdQuiet_openFd (hfree : p.table fd = none) : (p.openFd fd d).closeFdQuiet fd = p := by
  have htable : (p.table.assign fd d).close fd = p.table := by
    funext fd'
    by_cases hfd : fd' = fd
    · rw [hfd, DescriptorTable.close_self, hfree]
    · simp [hfd]
  simp only [closeFdQuiet, openFd, htable]

end Proc

/-! ## Calls that can be made again -/

namespace Station

variable {s s' : Station} {c : ListenCall} {e : TokioError}

/-- Everything is as before: both lists, the open numbers, the bound addresses and the socket
files. -/
structure Unchanged (s s' : Station) : Prop where
  inherited : s'.proc.inheritedFds = s.proc.inheritedFds
  used : s'.proc.usedFds = s.proc.usedFds
  table : s'.proc.table = s.proc.table
  addresses : s'.addresses = s.addresses
  files : ∀ path, path ∈ s'.socketFiles ↔ path ∈ s.socketFiles

/-- What is documented of making a socket: its number was free, its file is new, and `bind`
does not accept the path of a file that exists. -/
structure Fresh (s : Station) (c : ListenCall) : Prop where
  number : ∀ fd file info, c.making = .made fd file info → s.proc.table fd = none
  file : ∀ fd file info, c.making = .made fd file info →
    ∀ fd' d, s.proc.table fd' = some d → d.file ≠ file
  path : c.making.bound = true → ∀ path, c.path = some path → path ∉ s.socketFiles

/-- **The calls that leave nothing behind when they fail**: there is no inherited entry under
the key, and either no socket can be bound, or the socket has no file and its number cannot be
duplicated. -/
def leavesNothing (s : Station) (c : ListenCall) : Bool :=
  s.proc.inheritedFds.all (fun li => !(li.sockInfo == c.key)) &&
    match c.making with
    | .refused _ => true
    | .lost _ => c.path.isNone
    | .made fd file _ => c.path.isNone &&
        ((s.proc.table.assign fd ⟨file, true⟩).lowestFree (slots s.proc.limit) fd).isNone

/-- Turning the socket into one of the runtime's changes neither list. -/
theorem lists_fromStd (err : Option String) (x : Listened × Station) :
    (fromStd err x).2.proc.inheritedFds = x.2.proc.inheritedFds ∧
      (fromStd err x).2.proc.usedFds = x.2.proc.usedFds := by
  obtain ⟨res, s⟩ := x
  cases res with
  | error e => exact ⟨rfl, rfl⟩
  | ok r => cases err <;> exact ⟨rfl, rfl⟩

/-- An entry under the key is gone after the call. -/
theorem not_unchanged_of_present (h : s.perform c = some (.error e, s'))
    (hkey : ¬∀ li ∈ s.proc.inheritedFds, (li.sockInfo == c.key) = false) : ¬Unchanged s s' := by
  intro hsame
  rw [perform_eq] at h
  obtain ⟨x, hx, heq⟩ := Option.map_eq_some_iff.mp h
  have hlist := (lists_fromStd c.err x).1
  rw [heq, hsame.inherited] at hlist
  obtain ⟨⟨res, q⟩, hq, rfl⟩ := Option.map_eq_some_iff.mp hx
  have herase := Proc.inheritedFds_listenWith hq
  push Not at hkey
  obtain ⟨li, hli, hbeq⟩ := hkey
  have hlen := congrArg List.length (hlist.trans herase)
  rw [List.length_eraseP_of_mem hli (by simpa using hbeq)] at hlen
  have hpos := List.length_pos_of_mem hli
  omega

/-- There are more files than before, unless none was made. -/
theorem files_append_iff {files : List PathBuf} {path : Option PathBuf}
    (hfresh : ∀ x, path = some x → x ∉ files) :
    (∀ x, x ∈ files ++ path.toList ↔ x ∈ files) ↔ path.isNone = true := by
  cases path with
  | none => simp
  | some x =>
    have hx := hfresh x rfl
    simp only [Option.isNone_some, Bool.false_eq_true, iff_false, not_forall]
    exact ⟨x, fun hiff => hx (hiff.mp (by simp))⟩

/-- A file that no number refers to has no address that counts. -/
theorem addresses_update {file : ℕ} (hfile : ∀ fd d, s.proc.table fd = some d → d.file ≠ file)
    (files : List PathBuf) (info : SockInfo) :
    addresses { s with
      addressOf := Function.update s.addressOf file (some info), socketFiles := files }
      = s.addresses := by
  have hagree : ∀ fd d, s.proc.table fd = some d →
      Function.update s.addressOf file (some info) d.file = s.addressOf d.file :=
    fun fd d hd => Function.update_of_ne (hfile fd d hd) _ _
  ext a
  constructor
  · rintro ⟨fd, d, hd, ha⟩
    exact ⟨fd, d, hd, (hagree fd d hd).symm.trans ha⟩
  · rintro ⟨fd, d, hd, ha⟩
    exact ⟨fd, d, hd, (hagree fd d hd).trans ha⟩

/-- **A failed call can be made again exactly when it leaves nothing behind.**  For every
state, every one of the methods and every point at which it fails: everything is as before if
and only if there was no inherited entry under the key and no socket was bound, or the bound
socket has no file and could not be registered. -/
theorem retry_iff (hfresh : s.Fresh c) (h : s.perform c = some (.error e, s')) :
    Unchanged s s' ↔ s.leavesNothing c = true := by
  by_cases hkey : ∀ li ∈ s.proc.inheritedFds, (li.sockInfo == c.key) = false
  swap
  · refine iff_of_false (not_unchanged_of_present h hkey) fun hleaves => hkey ?_
    simp only [leavesNothing, Bool.and_eq_true, List.all_eq_true, Bool.not_eq_true'] at hleaves
    exact hleaves.1
  have hall : (s.proc.inheritedFds.all fun li => !(li.sockInfo == c.key)) = true := by
    simpa using hkey
  have hinh := Proc.inherit_of_absent hkey
  have hclaims : s.proc.claims c.key = false := by simp [Proc.claims, hinh]
  rw [perform_eq] at h
  obtain ⟨x, hx, heq⟩ := Option.map_eq_some_iff.mp h
  simp only [listenWith, hclaims, Bool.false_eq_true, if_false] at hx
  rw [leavesNothing, hall, Bool.true_and]
  cases hm : c.making with
  | refused msg =>
    -- nothing was done
    simp only [hm, Making.creation, Proc.listenWith, hinh, Option.map_some, bind,
      Option.some.injEq] at hx
    subst hx
    cases heq
    exact iff_of_true ⟨rfl, rfl, rfl, rfl, fun _ => Iff.rfl⟩ rfl
  | lost msg =>
    simp only [hm, Making.creation, Proc.listenWith, hinh, Option.map_some, bind,
      Option.some.injEq] at hx
    subst hx
    cases heq
    have hfiles := files_append_iff (hfresh.path (by rw [hm]; rfl))
    exact ⟨fun hsame => hfiles.mp hsame.files, fun hnone =>
      ⟨rfl, rfl, rfl, rfl, hfiles.mpr hnone⟩⟩
  | made fd file info =>
    have hfiles := files_append_iff (hfresh.path (by rw [hm]; rfl))
    show Unchanged s s' ↔ (c.path.isNone && ((s.proc.table.assign fd ⟨file, true⟩).lowestFree
      (slots s.proc.limit) fd).isNone) = true
    rw [s.proc.isNone_lowestFree fd ⟨file, true⟩ info]
    simp only [hm, Making.creation, Proc.listenWith, hinh] at hx
    cases hadd : (s.proc.openFd fd ⟨file, true⟩).add ⟨fd, info⟩ with
    | ok r =>
      -- a duplicate is in the registry and stays there
      simp only [hadd, Option.map_some, Option.some.injEq] at hx
      have hused := (lists_fromStd c.err x).2
      rw [heq, ← hx] at hused
      obtain ⟨n, d, -, -, -, -, rfl⟩ := Proc.add_eq_ok hadd
      refine iff_of_false (fun hsame => ?_) (by simp [Except.isOk, Except.toBool])
      have hlen := congrArg List.length (hsame.used.symm.trans hused)
      simp [Proc.openFd] at hlen
    | error e' =>
      -- the socket is dropped, its file stays
      simp only [hadd, Option.map_some, Option.some.injEq, bind,
        Proc.closeFdQuiet_openFd (hfresh.number fd file info hm)] at hx
      subst hx
      cases heq
      simp only [Except.isOk, Except.toBool, Bool.not_false, Bool.and_true]
      exact ⟨fun hsame => hfiles.mp hsame.files, fun hpath => ⟨rfl, rfl, rfl,
        addresses_update (hfresh.file fd file info hm) _ _, hfiles.mpr hpath⟩⟩

end Station

/-! ### A refusal, and a wrapper that fails late -/

namespace Station

/-- A first process on an empty system. -/
def quiet : Station := ⟨freshProc, fun _ => none, []⟩

/-- A call for an address that is in use. -/
def refusedCall : ListenCall := .tokioBuildListenTcp loopback (.refused "address in use") none

/-- A call that is refused can be made again. -/
theorem retry_refused :
    ∃ e s', quiet.perform refusedCall = some (.error e, s') ∧ Unchanged quiet s' := by
  have hfresh : quiet.Fresh refusedCall := by
    refine ⟨?_, ?_, nofun⟩
    · intro fd file info h
      cases h
    · intro fd file info h
      cases h
  have hcall : ∃ e s', quiet.perform refusedCall = some (.error e, s') := ⟨_, _, rfl⟩
  obtain ⟨e, s', h⟩ := hcall
  exact ⟨e, s', h, (retry_iff hfresh h).mpr (by decide)⟩

/-- A child that has inherited a socket at `/a`. -/
def heir : Station where
  proc :=
    { limit := 16
      table := fun fd => if fd = 3 then some ⟨7, false⟩ else none
      inheritedFds := [⟨3, .unix (some slashA)⟩]
      usedFds := [] }
  addressOf := fun file => if file = 7 then some (.unix (some slashA)) else none
  socketFiles := [slashA]

/-- `TokioEcdysis::listen_unix` at `/a`, where the runtime does not take the socket. -/
def lateFailure : ListenCall :=
  .tokioListenUnix slashA (.refused "address in use") (some "no reactor")

/-- The call fails after it has claimed the inherited socket: the entry is gone from one list
and its duplicate is in the other, so that the same call does not find it again. -/
theorem late_failure_not_undone :
    ∃ e s', heir.perform lateFailure = some (.error e, s') ∧ ¬Unchanged heir s' ∧
      s'.proc.inheritedFds = [] ∧ s'.proc.usedFds.length = 1 ∧
      s'.proc.claims lateFailure.key = false := by
  have hrun : (heir.perform lateFailure).map (fun x => !x.1.isOk &&
      x.2.proc.inheritedFds.isEmpty && x.2.proc.usedFds.length == 1 &&
      !x.2.proc.claims lateFailure.key) = some true := by
    decide +kernel
  obtain ⟨⟨res, s'⟩, h, hcheck⟩ := Option.map_eq_some_iff.mp hrun
  simp only [Bool.and_eq_true, Bool.not_eq_true', List.isEmpty_iff, beq_iff_eq] at hcheck
  obtain ⟨⟨⟨hres, hinherited⟩, hused⟩, hclaims⟩ := hcheck
  cases res with
  | ok fd => cases hres
  | error e =>
    refine ⟨e, s', h, fun hsame => ?_, hinherited, hused, hclaims⟩
    have hlist := hinherited.symm.trans hsame.inherited
    cases hlist

end Station
