/-
# Looking up and registering sockets

Two results about the keys of the registry.

* `inherit_sound_iff` : the callers of `inherit` take `None` to mean that the parent had no
  such socket.  That is what it means as long as the number found can be duplicated; when
  it cannot, the entry has been removed and the answer is `None` all the same.
* `registration_key_iff` : a new socket is registered under what the system reports of it
  and looked up in a child under what was asked for.  Which addresses and paths have the
  same key on both ways depends on what `bind` chooses by itself and on what survives the
  message to the child.
-/
import Ecdysis.Generations

namespace Proc

variable {p q : Proc} {k : SockInfo} {fd : RawFd}

/-- The process would be handed an inherited socket under the key. -/
def claims (p : Proc) (k : SockInfo) : Bool := (p.inherit k).any fun x => x.1.isSome

/-! ## What `None` means -/

/-- What the callers of `inherit` rely on: `None` means that there is no entry under the
key, and leaves everything as it was; otherwise the first entry under the key has moved, and
a fresh duplicate, closed on `exec`, is registered under the key. -/
def InheritSound (p : Proc) (k : SockInfo) : Prop :=
  ∀ r q, p.inherit k = some (r, q) →
    (r = none → (∀ li ∈ p.inheritedFds, (li.sockInfo == k) = false) ∧
      q.inheritedFds = p.inheritedFds ∧ q.usedFds = p.usedFds ∧ q.table = p.table) ∧
    ∀ fd, r = some fd → ∃ before li after n d,
      p.inheritedFds = before ++ li :: after ∧ (∀ l ∈ before, (l.sockInfo == k) = false) ∧
      (li.sockInfo == k) = true ∧ li.fd = fd ∧ p.table fd = some d ∧
      q.inheritedFds = before ++ after ∧ q.usedFds = p.usedFds ++ [⟨n, k⟩] ∧
      p.table n = none ∧ q.table n = some { d with cloexec := true }

/-- If there is an entry under the key, its number can be duplicated: some number from there
on is free. -/
def CanDuplicate (p : Proc) (k : SockInfo) : Prop :=
  ∀ li, p.inheritedFds.find? (fun li => li.sockInfo == k) = some li →
    (p.table li.fd).isSome = true →
      (p.table.lowestFree (slots p.limit) li.fd).isSome = true

/-- Taking an entry does not change which of its numbers can be duplicated. -/
theorem cloneFd_after_take {li : ListenerInfo} {d : Desc} (l : List ListenerInfo)
    (hd : p.table li.fd = some d) :
    ({ p.openFd li.fd { d with cloexec := true } with inheritedFds := l }.cloneFd li.fd).isOk
      = (p.table.lowestFree (slots p.limit) li.fd).isSome := by
  have hopen : (p.table li.fd).isSome = true := by rw [hd, Option.isSome_some]
  have hfree : (p.table.assign li.fd { d with cloexec := true }).lowestFree (slots p.limit) li.fd
      = p.table.lowestFree (slots p.limit) li.fd := DescriptorTable.lowestFree_assign hopen _
  simp only [cloneFd, openFd, DescriptorTable.assign_self, hfree]
  cases p.table.lowestFree (slots p.limit) li.fd <;> rfl

/-- An open number under the key is taken, and the answer is that number exactly when it can
be duplicated. -/
theorem inherit_of_find {li : ListenerInfo}
    (hli : p.inheritedFds.find? (fun li => li.sockInfo == k) = some li)
    (hopen : (p.table li.fd).isSome = true) :
    ∃ q, p.inherit k = some (if (p.table.lowestFree (slots p.limit) li.fd).isSome = true
        then some li.fd else none, q) := by
  obtain ⟨d, hd⟩ := Option.isSome_iff_exists.mp hopen
  have htake : p.take k = some (some li.fd, { p.openFd li.fd { d with cloexec := true } with
      inheritedFds := p.inheritedFds.eraseP fun li => li.sockInfo == k }) := by
    simp [take, hli, setCloexec, hd, openFd]
  rw [← cloneFd_after_take (p.inheritedFds.eraseP fun li => li.sockInfo == k) hd]
  simp only [inherit, htake, add]
  cases Proc.cloneFd { p.openFd li.fd { d with cloexec := true } with
      inheritedFds := p.inheritedFds.eraseP fun li => li.sockInfo == k } li.fd with
  | error e => exact ⟨_, rfl⟩
  | ok r => exact ⟨_, rfl⟩

/-- **`inherit` answers `None` only for absent keys, exactly when the number it finds can be
duplicated.** -/
theorem inherit_sound_iff (p : Proc) (k : SockInfo) : p.InheritSound k ↔ p.CanDuplicate k := by
  constructor
  · intro hsound li hli hopen
    by_contra hne
    -- the answer is `None` although the entry is there
    obtain ⟨q, hinh⟩ := inherit_of_find hli hopen
    rw [if_neg hne] at hinh
    have habsent := ((hsound none q hinh).1 rfl).1 li (List.mem_of_find?_eq_some hli)
    rw [List.find?_some hli] at habsent
    cases habsent
  · intro hdup r q hinh
    rcases inherit_eq_some hinh with ⟨rfl, rfl, htake⟩ | ⟨fd, q', htake, hadd, rfl⟩ |
      ⟨fd, e, htake, hadd, rfl⟩
    -- there is no entry under the key
    · refine ⟨fun _ => ⟨?_, rfl, rfl, rfl⟩, nofun⟩
      rcases take_eq_some htake with ⟨hfind, -, -⟩ | ⟨li, d, -, hr, -⟩
      · intro li hli
        simpa using List.find?_eq_none.mp hfind li hli
      · cases hr
    -- the first entry has been claimed and its duplicate registered
    · refine ⟨nofun, ?_⟩
      rintro _ ⟨⟩
      rcases take_eq_some htake with ⟨-, hr, -⟩ | ⟨li, d, hfind, hr, hd, rfl⟩
      · cases hr
      cases hr
      obtain ⟨hkey, before, after, hsplit, hbefore⟩ := List.find?_eq_some_iff_append.mp hfind
      have hbefore' : ∀ l ∈ before, (l.sockInfo == k) = false := by
        intro l hl
        simpa using hbefore l hl
      obtain ⟨n, d', hd', -, -, hfree, rfl⟩ := add_eq_ok hadd
      have hd'' : d' = { d with cloexec := true } := by
        simpa [openFd] using hd'.symm
      have hn : n ≠ li.fd := by
        rintro rfl
        simp [openFd] at hfree
      refine ⟨before, li, after, n, d, hsplit, hbefore', hkey, rfl, hd, ?_, rfl, ?_, ?_⟩
      · show p.inheritedFds.eraseP (fun li => li.sockInfo == k) = before ++ after
        rw [hsplit, List.eraseP_append_right _ (by simpa using hbefore')]
        simp only [List.eraseP_cons, hkey, cond_true]
      · simpa [openFd, hn] using hfree
      · simp [openFd, hd'']
    -- a duplication that fails
    · rcases take_eq_some htake with ⟨-, hr, -⟩ | ⟨li, d, hfind, hr, hd, rfl⟩
      · cases hr
      cases hr
      have hclone := cloneFd_after_take (p.inheritedFds.eraseP fun li => li.sockInfo == k) hd
      rw [hdup li hfind (by rw [hd]; rfl)] at hclone
      exact absurd hadd (add_ne_error hclone)

/-! ### The last number -/

/-- A child with one inherited socket under the last number there is. -/
def lastNumber : Proc where
  limit := 4
  table := fun fd => if fd = 3 then some ⟨7, false⟩ else none
  inheritedFds := [⟨3, .tcp loopback⟩]
  usedFds := []

/-- Its socket is there, and `inherit` answers `None` and forgets it; the number stays
open. -/
theorem inherit_none_for_present_key :
    (∃ li ∈ lastNumber.inheritedFds, (li.sockInfo == .tcp loopback) = true) ∧
      ∃ q, lastNumber.inherit (.tcp loopback) = some (none, q) ∧ q.inheritedFds = [] ∧
        q.usedFds = [] ∧ (q.table 3).isSome = true := by
  refine ⟨⟨⟨3, .tcp loopback⟩, List.mem_singleton_self _, by decide⟩, ?_⟩
  have hrun : (lastNumber.inherit (.tcp loopback)).map (fun r =>
      r.1.isNone && r.2.inheritedFds.isEmpty && r.2.usedFds.isEmpty && (r.2.table 3).isSome)
      = some true := by
    decide +kernel
  obtain ⟨⟨r, q⟩, hinh, hcheck⟩ := Option.map_eq_some_iff.mp hrun
  simp only [Bool.and_eq_true, List.isEmpty_iff, Option.isNone_iff_eq_none] at hcheck
  obtain ⟨⟨⟨rfl, hinherited⟩, hused⟩, hopen⟩ := hcheck
  exact ⟨q, hinh, hinherited, hused, hopen⟩

end Proc

/-! ## What is stored and what is looked up -/

/-- The port of an address. -/
def SocketAddr.port : SocketAddr → UInt16
  | .v4 a => a.port
  | .v6 a => a.port

theorem SocketAddr.port_onWire (a : SocketAddr) : a.onWire.port = a.port := by
  cases a <;> rfl

theorem SocketAddr.plain_onWire (a : SocketAddr) : a.onWire.plain = true := by
  cases a <;> simp [onWire, plain]

/-- A path that can name a socket file: it is not empty and has no zero byte. -/
def PathBuf.named (path : PathBuf) : Bool := path.bytes ≠ [] ∧ 0 ∉ path.bytes

/-- What is documented of the address a bound socket reports: the system fills in the port
when it is asked for port 0, and changes no address that leaves it nothing to choose. -/
def SocketAddr.Binds (asked reported : SocketAddr) : Prop :=
  (asked.port = 0 → reported.port ≠ 0) ∧
    (asked.port ≠ 0 → asked.plain = true → reported = asked)

/-- An address is read by the child as it was asked for exactly when it is determined. -/
theorem SocketAddr.Binds.onWire_eq_iff {asked reported : SocketAddr}
    (h : asked.Binds reported) :
    reported.onWire = asked ↔ asked.port ≠ 0 ∧ asked.plain = true := by
  constructor
  · rintro rfl
    refine ⟨fun hzero => ?_, reported.plain_onWire⟩
    exact h.1 hzero (by rw [← reported.port_onWire, hzero])
  · rintro ⟨hport, hplain⟩
    rw [h.2 hport hplain]
    exact (SocketAddr.onWire_eq_iff asked).mpr hplain

namespace Request

/-- What is documented of the report on a new socket.  A path is reported as it was given;
for the empty one the system chooses an address that is no path.  The standard library
accepts no path with a zero byte. -/
def Reported : Request → Prop
  | .unix path (.created _ _ reported) =>
    0 ∉ path.bytes ∧ reported = if path.bytes = [] then none else some path
  | .unixSeqpacket path (.created _ _ reported) _ => path.named = true → reported = path
  | .tcp addr (.created _ _ reported) => addr.Binds reported
  | .udp addr (.created _ _ reported) => addr.Binds reported
  | _ => True

/-- The requests that leave nothing to the system and nothing behind in the message: the
port is given, an IPv6 address has no flow information and no scope, the path is not empty.
What a seqpacket socket reports of a path that names no file is not documented. -/
def determined : Request → Bool
  | .unix path _ => path.bytes ≠ []
  | .unixSeqpacket path (.created _ _ reported) _ => path.named || reported == path
  | .unixSeqpacket path (.failed _) _ => path.named
  | .tcp addr _ => addr.port ≠ 0 ∧ addr.plain
  | .udp addr _ => addr.port ≠ 0 ∧ addr.plain

variable {r : Request} {fd : RawFd} {file : ℕ} {info : SockInfo}

/-- **The child reads the key of the request exactly when the request is determined.** -/
theorem Reported.onWire_beq_iff (hr : r.Reported) (hc : r.creation = .created fd file info) :
    (info.onWire == r.key) = true ↔ r.determined = true := by
  cases r with
  | unix path c =>
    cases c with
    | failed msg => cases hc
    | created fd' file' reported =>
      cases hc
      obtain ⟨-, rfl⟩ := hr
      by_cases hempty : path.bytes = [] <;>
        simp [SockInfo.beq_iff_key, SockInfo.onWire, SockInfo.key, key, determined, hempty]
  | unixSeqpacket path c adopt =>
    cases c with
    | failed msg => cases hc
    | created fd' file' reported =>
      cases hc
      simp only [SockInfo.beq_iff_key, SockInfo.onWire, SockInfo.key, key, determined,
        Bool.or_eq_true, PathBuf.beq_iff, Option.map_some, SockInfo.Key.unixSeqpacket.injEq,
        Option.some.injEq]
      refine ⟨Or.inr, ?_⟩
      rintro (hnamed | hsame)
      · rw [hr hnamed]
      · exact hsame
  | tcp addr c =>
    cases c with
    | failed msg => cases hc
    | created fd' file' reported =>
      cases hc
      simpa [SockInfo.beq_iff_key, SockInfo.onWire, SockInfo.key, key, determined]
        using SocketAddr.Binds.onWire_eq_iff hr
  | udp addr c =>
    cases c with
    | failed msg => cases hc
    | created fd' file' reported =>
      cases hc
      simpa [SockInfo.beq_iff_key, SockInfo.onWire, SockInfo.key, key, determined]
        using SocketAddr.Binds.onWire_eq_iff hr

/-- A determined request is stored under the key it looks for. -/
theorem Reported.beq_key (hr : r.Reported) (hc : r.creation = .created fd file info)
    (hdet : r.determined = true) : (info == r.key) = true := by
  have hwire := (hr.onWire_beq_iff hc).mpr hdet
  suffices hsame : info.onWire = info by rwa [hsame] at hwire
  cases r with
  | unix path c | unixSeqpacket path c adopt =>
    cases c <;> cases hc
    rfl
  | tcp addr c | udp addr c =>
    cases c with
    | failed msg => cases hc
    | created fd' file' reported =>
      cases hc
      obtain ⟨hport, hplain⟩ : addr.port ≠ 0 ∧ addr.plain = true := by
        simpa [determined] using hdet
      rw [SockInfo.onWire_eq_iff, show reported = addr from hr.2 hport hplain]
      exact hplain

end Request

namespace Proc

variable {p q child : Proc} {r : Request} {fd : RawFd} {k : SockInfo}

/-- A claim registers the first entry under the key anew, for the same file, and returns its
old number. -/
theorem claimed_of_inherit (h : p.inherit k = some (some fd, q)) :
    p.claims k = true ∧ ∃ li ∈ p.inheritedFds, ∃ n file, (li.sockInfo == k) = true ∧
      li.fd = fd ∧ n ≠ fd ∧ p.fileOf fd = some file ∧ q.usedFds = p.usedFds ++ [⟨n, k⟩] ∧
      q.fileOf n = some file ∧ q.fileOf fd = some file := by
  refine ⟨by simp [claims, h], ?_⟩
  rcases inherit_eq_some h with ⟨hr, _⟩ | ⟨fd', q', htake, hadd, hr⟩ | ⟨_, _, _, _, hr⟩ <;>
  cases hr
  rcases take_eq_some htake with ⟨_, hr, _⟩ | ⟨li, d, hfind, hr, hd, rfl⟩ <;> cases hr
  obtain ⟨n, d', hd', -, -, hfree, rfl⟩ := add_eq_ok hadd
  have hd'' : d' = { d with cloexec := true } := by simpa [openFd] using hd'.symm
  have hne : n ≠ li.fd := by
    rintro rfl
    simp [openFd] at hfree
  have hkey : (li.sockInfo == k) = true := by simpa using List.find?_some hfind
  refine ⟨li, List.mem_of_find?_eq_some hfind, n, d.file, hkey, rfl, hne, ?_, rfl, ?_, ?_⟩
  · simp [fileOf, hd]
  · simp [fileOf, openFd, hd'']
  · simp [fileOf, openFd, hne.symm]

/-- Without a claim the entries in use stay as they are. -/
theorem usedFds_of_inherit_none (h : p.inherit k = some (none, q)) :
    p.claims k = false ∧ q.usedFds = p.usedFds :=
  ⟨by simp [claims, h], (lists_inherit h).2⟩

/-- **What a listening method registers and returns**: a claimed socket under the key it was
asked for; or nothing; or a new one under what the system reports. -/
theorem listenWith_spec {c : Creation SockInfo} {adopt : Bool} {res : Listened}
    (h : p.listenWith k c adopt = some (res, q)) :
    (p.claims k = true ∧ ∃ li ∈ p.inheritedFds, ∃ n file, (li.sockInfo == k) = true ∧
      p.fileOf li.fd = some file ∧ q.usedFds = p.usedFds ++ [⟨n, k⟩] ∧ q.fileOf n = some file ∧
      ∀ x, res = .ok x → x = (.inherited, li.fd) ∧ q.fileOf li.fd = some file) ∨
    (p.claims k = false ∧ q.usedFds = p.usedFds ∧ ∃ e, res = .error e) ∨
    (p.claims k = false ∧ ∃ fd file info n, c = .created fd file info ∧
      res = .ok (.created, fd) ∧ q.usedFds = p.usedFds ++ [⟨n, info⟩] ∧
      q.fileOf n = some file ∧ q.fileOf fd = some file) := by
  rcases listenWith_eq_some h with ⟨fd, q', hinh, hres⟩ | ⟨q', hinh, hres⟩
  · left
    obtain ⟨hclaims, li, hli, n, file, hkey, rfl, hne, hfile, hused, hn, hfd⟩ :=
      claimed_of_inherit hinh
    refine ⟨hclaims, li, hli, n, file, hkey, hfile, ?_⟩
    rcases hres with ⟨_, rfl, rfl⟩ | ⟨_, rfl, rfl⟩
    · refine ⟨hused, hn, fun x hx => ?_⟩
      cases hx
      exact ⟨rfl, hfd⟩
    -- the listener is not accepted, and its number closed
    · refine ⟨hused, ?_, nofun⟩
      rw [fileOf_closeFdQuiet_of_ne hne, hn]
  · obtain ⟨hclaims, hused⟩ := usedFds_of_inherit_none hinh
    right
    rcases hres with ⟨msg, _, rfl, rfl⟩ | ⟨fd, file, info, rfl, ⟨hadd, rfl⟩ | ⟨e, _, rfl, rfl⟩⟩
    · exact .inl ⟨hclaims, hused, _, rfl⟩
    · right
      obtain ⟨n, d, hd, -, -, hfree, rfl⟩ := add_eq_ok hadd
      have hd' : d = ⟨file, true⟩ := by simpa [openFd] using hd.symm
      have hne : fd ≠ n := by
        rintro rfl
        simp [openFd] at hfree
      refine ⟨hclaims, fd, file, info, n, rfl, rfl, ?_, ?_, ?_⟩
      · simp [openFd, hused]
      · simp [fileOf, openFd, hd']
      · simp [fileOf, openFd, hne]
    · exact .inl ⟨hclaims, hused, _, rfl⟩

/-- What a method that makes a new socket registers: one entry with the reported
description, for the file of the number it returns. -/
theorem listen_created (h : p.listen r = some (.ok (.created, fd), q)) :
    ∃ li file info, r.creation = .created fd file info ∧ li.sockInfo = info ∧
      q.usedFds = p.usedFds ++ [li] ∧ q.fileOf li.fd = some file ∧ q.fileOf fd = some file := by
  rw [listen_eq] at h
  rcases listenWith_spec h with ⟨_, li, _, n, file, _, _, _, _, hres⟩ | ⟨_, _, e, he⟩ |
    ⟨_, fd', file, info, n, hc, hres, hused, hn, hfd⟩
  · have hx := (hres _ rfl).1
    cases hx
  · cases he
  · cases hres
    exact ⟨⟨n, info⟩, file, info, hc, rfl, hused, hn, hfd⟩

/-- A child finds the last entry of its parent's list under its key, if the entries before
have other keys. -/
theorem find_inherited_of_last {l : List ListenerInfo} {li : ListenerInfo}
    (h : p.spawnChild (l ++ [li]) = some child)
    (hbefore : ∀ l' ∈ l, (l'.onWire.sockInfo == k) = false) :
    child.inheritedFds.find? (fun li => li.sockInfo == k)
      = if (li.onWire.sockInfo == k) = true then some li.onWire else none := by
  have hnone : (l.map ListenerInfo.onWire).find? (fun li => li.sockInfo == k) = none := by
    simpa using hbefore
  rw [(spawnChild_eq_some h).1, List.map_append, List.find?_append, hnone, Option.none_or,
    List.map_singleton, List.find?_singleton]

/-- **The key of the registration is the key of the lookup exactly for the determined
requests**: only then is the new socket stored under the key the same call looks for, here
and, after the message, in a child; and then a child that asks for it again obtains this
socket, when no entry before it has the same key and a number is free to duplicate it. -/
theorem registration_key_iff (h : p.listen r = some (.ok (.created, fd), q)) (hr : r.Reported) :
    ∃ li, q.usedFds = p.usedFds ++ [li] ∧ q.fileOf li.fd = q.fileOf fd ∧
      ((li.sockInfo == r.key) = true ∧ (li.onWire.sockInfo == r.key) = true
        ↔ r.determined = true) ∧
      ∀ child, q.spawnChild q.getFdsForChild = some child → child.CanDuplicate r.key →
        (∀ l ∈ p.usedFds, (l.onWire.sockInfo == r.key) = false) →
        ((∃ n c, child.inherit r.key = some (some n, c) ∧ child.fileOf n = q.fileOf fd)
          ↔ r.determined = true) := by
  obtain ⟨li, file, info, hc, hinfo, hused, hli, hfd⟩ := listen_created h
  have hwire : (li.onWire.sockInfo == r.key) = true ↔ r.determined = true := by
    rw [← hr.onWire_beq_iff hc, ← hinfo]
    rfl
  refine ⟨li, hused, hli.trans hfd.symm, ⟨fun hkeys => hwire.mp hkeys.2, fun hdet => ⟨?_, ?_⟩⟩, ?_⟩
  · rw [hinfo]
    exact hr.beq_key hc hdet
  · exact hwire.mpr hdet
  · intro child hchild hdup hbefore
    rw [getFdsForChild, hused] at hchild
    have hfind := find_inherited_of_last hchild hbefore
    have hfile : child.fileOf li.fd = some file := by
      rw [(spawnChild_eq_some hchild).2.2.2 li (by simp), hli]
    rw [hfd]
    constructor
    · rintro ⟨n, c, hinh, -⟩
      by_contra hnot
      rw [if_neg (fun hkey => hnot (hwire.mp hkey))] at hfind
      -- nothing is found under the key
      have htake : child.take r.key = some (none, child) := by simp [take, hfind]
      simp [inherit, htake] at hinh
    · intro hdet
      rw [if_pos (hwire.mpr hdet)] at hfind
      have hopen : (child.table li.onWire.fd).isSome = true := by
        have := congrArg Option.isSome hfile
        simpa [fileOf, ListenerInfo.onWire] using this
      obtain ⟨c, hinh⟩ := inherit_of_find hfind hopen
      rw [if_pos (hdup li.onWire hfind hopen)] at hinh
      exact ⟨li.fd, c, hinh, hfile⟩

/-- A request for `127.0.0.1:8080`, which gets number 3. -/
def asksLoopback : Request := .tcp loopback (.created 3 7 loopback)

/-- The child of a process that listens on `127.0.0.1:8080` finds its socket. -/
theorem registration_key_loopback :
    ∃ q child, freshProc.listen asksLoopback = some (.ok (.created, 3), q) ∧
      q.spawnChild q.getFdsForChild = some child ∧
      ∃ n c, child.inherit (.tcp loopback) = some (some n, c) ∧ child.fileOf n = some 7 := by
  have hcall : ∃ q, freshProc.listen asksLoopback = some (.ok (.created, 3), q) := ⟨_, rfl⟩
  obtain ⟨q, hq⟩ := hcall
  have hchild : ((freshProc.listen asksLoopback).bind fun x =>
      x.2.spawnChild x.2.getFdsForChild).isSome = true := by
    decide +kernel
  have hfree : ((freshProc.listen asksLoopback).bind fun x =>
      x.2.spawnChild x.2.getFdsForChild).all (fun child => child.inheritedFds.all fun li =>
        (child.table.lowestFree (slots child.limit) li.fd).isSome) = true := by
    decide +kernel
  have hfile : ((freshProc.listen asksLoopback).map fun x => x.2.fileOf 3) = some (some 7) := by
    decide +kernel
  rw [hq] at hchild hfree hfile
  obtain ⟨child, hc⟩ := Option.isSome_iff_exists.mp hchild
  rw [hc, Option.all_some, List.all_eq_true] at hfree
  have hdup : child.CanDuplicate (.tcp loopback) := fun li hli _ =>
    hfree li (List.mem_of_find?_eq_some hli)
  have hreported : asksLoopback.Reported := ⟨by decide, fun _ _ => rfl⟩
  obtain ⟨li, -, -, -, hinherit⟩ := registration_key_iff hq hreported
  obtain ⟨n, c, hinh, hn⟩ := (hinherit child hc hdup nofun).mpr (by decide)
  exact ⟨q, child, hq, hc, n, c, hinh, hn.trans (Option.some.inj hfile)⟩

/-- The address `127.0.0.1:0`. -/
def anyPort : SocketAddr := localhost 0

/-- A request for port 0 is registered under the port it got, and a child that makes the same
request does not find the socket. -/
theorem assigned_port_not_found :
    ∃ q child li, freshProc.listen (.tcp anyPort (.created 3 7 (localhost 40000)))
        = some (.ok (.created, 3), q) ∧
      q.usedFds = [li] ∧ (li.sockInfo == .tcp anyPort) = false ∧
      q.spawnChild q.getFdsForChild = some child ∧
      child.inherit (.tcp anyPort) = some (none, child) := by
  have hcall : ∃ q, freshProc.listen (.tcp anyPort (.created 3 7 (localhost 40000)))
      = some (.ok (.created, 3), q) := ⟨_, rfl⟩
  obtain ⟨q, hq⟩ := hcall
  have hchild : ((freshProc.listen (.tcp anyPort (.created 3 7 (localhost 40000)))).bind fun x =>
      x.2.spawnChild x.2.getFdsForChild).isSome = true := by
    decide +kernel
  rw [hq, Option.bind_some] at hchild
  obtain ⟨child, hc⟩ := Option.isSome_iff_exists.mp hchild
  obtain ⟨li, file, info, hcr, hinfo, hused, -, -⟩ := listen_created hq
  cases hcr
  have hkey : (li.sockInfo == .tcp anyPort) = false := by
    rw [hinfo]
    decide
  refine ⟨q, child, li, hq, hused, hkey, hc, ?_⟩
  have hfind : child.inheritedFds.find? (fun li => li.sockInfo == .tcp anyPort) = none := by
    have hlist : q.getFdsForChild = [] ++ [li] := hused
    rw [hlist] at hc
    rw [find_inherited_of_last hc nofun, ListenerInfo.onWire, hinfo]
    rfl
  simp [inherit, take, hfind]

end Proc
