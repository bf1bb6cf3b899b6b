/-
# The message that hands the listeners over

`send_fds` serialises the list of registered sockets with bincode and writes it to
the child's pipe; `init_child` deserialises it.  The formats of the components are
those of serde in a format that is not human readable: an address is its octets and
its port, **without** the flow information and the scope identifier of IPv6, which
are read back as `0`; a path is written as a text and cannot be written when it is not
valid UTF-8.

* `deserializeFrom_serializeInto` : the child reads the list with every IPv6 address
  stripped of these two fields (`ListenerInfo.onWire`), and nothing else changed;
* `handover_roundtrip_iff` : so it reads the same list exactly when they were zero;
* `deserializeFrom_truncated` : it reads nothing from a message that is cut off.
-/
import Ecdysis.ByteCodec
import Ecdysis.SockInfo

open ByteCodec

/-! ## The format -/

/-- An address: variant, octets, port. -/
def SocketAddr.write : SocketAddr → List UInt8
  | .v4 a => writeVariant 0 (a.ip.toList ++ leBytes 2 a.port.toNat)
  | .v6 a => writeVariant 1 (a.ip.toList ++ leBytes 2 a.port.toNat)

def SocketAddr.read : Reader SocketAddr := readVariant fun
  | 0 => (readArray 4).bind fun ip => (readNat 2).map fun port => .v4 ⟨ip, UInt16.ofNat port⟩
  | 1 => (readArray 16).bind fun ip =>
      (readNat 2).map fun port => .v6 ⟨ip, UInt16.ofNat port, 0, 0⟩
  | _ => .fail

/-- A path, as a text if it is one. -/
def PathBuf.write (p : PathBuf) : Option (List UInt8) :=
  if p.bytes.toByteArray.IsValidUTF8 then writeBlob p.bytes else none

def PathBuf.read : Reader PathBuf := readString.map fun s => ⟨s.toByteArray.data.toList⟩

/-- `Serialize for SockInfo`. -/
def SockInfo.write : SockInfo → Option (List UInt8)
  | .unix p => (writeOption PathBuf.write p).map (writeVariant 0)
  | .tcp a => some (writeVariant 1 a.write)
  | .udp a => some (writeVariant 2 a.write)
  | .unboundUnixDatagram n => (writeString n).map (writeVariant 3)
  | .unixSeqpacket p => (writeOption PathBuf.write p).map (writeVariant 4)

/-- `Deserialize for SockInfo`. -/
def SockInfo.read : Reader SockInfo := readVariant fun
  | 0 => (readOption PathBuf.read).map .unix
  | 1 => SocketAddr.read.map .tcp
  | 2 => SocketAddr.read.map .udp
  | 3 => readString.map .unboundUnixDatagram
  | 4 => (readOption PathBuf.read).map .unixSeqpacket
  | _ => .fail

/-- `Serialize for ListenerInfo`. -/
def ListenerInfo.write (li : ListenerInfo) : Option (List UInt8) :=
  li.sockInfo.write.map (leBytes 4 li.fd.toUInt32.toNat ++ ·)

/-- `Deserialize for ListenerInfo`. -/
def ListenerInfo.read : Reader ListenerInfo := (readNat 4).bind fun n =>
  SockInfo.read.map fun k => ⟨(UInt32.ofNat n).toInt32, k⟩

/-- What `send_fds` writes, unless serialisation fails. -/
def serializeInto (fds : List ListenerInfo) : Option (List UInt8) :=
  writeSeq ListenerInfo.write fds

/-- What `init_child` makes of the bytes it receives; the rest of the pipe is dropped. -/
def deserializeFrom (bs : List UInt8) : Option (List ListenerInfo) :=
  (readSeq ListenerInfo.read bs).map Prod.fst

/-! ## What survives the way -/

/-- The address the child reads. -/
def SocketAddr.onWire : SocketAddr → SocketAddr
  | .v4 a => .v4 a
  | .v6 a => .v6 { a with flowinfo := 0, scopeId := 0 }

/-- The description the child reads. -/
def SockInfo.onWire : SockInfo → SockInfo
  | .tcp a => .tcp a.onWire
  | .udp a => .udp a.onWire
  | k => k

/-- The entry the child reads. -/
def ListenerInfo.onWire (li : ListenerInfo) : ListenerInfo := ⟨li.fd, li.sockInfo.onWire⟩

/-- An IPv6 address without flow information and scope identifier, or an IPv4 one. -/
def SocketAddr.plain : SocketAddr → Bool
  | .v4 _ => true
  | .v6 a => a.flowinfo = 0 ∧ a.scopeId = 0

/-- The addresses in the description are plain. -/
def SockInfo.plain : SockInfo → Bool
  | .tcp a | .udp a => a.plain
  | _ => true

theorem SocketAddr.onWire_eq_iff (a : SocketAddr) : a.onWire = a ↔ a.plain = true := by
  cases a with
  | v4 a => simp [onWire, plain]
  | v6 a =>
    obtain ⟨ip, port, flowinfo, scopeId⟩ := a
    simp only [onWire, plain, SocketAddr.v6.injEq, SocketAddrV6.mk.injEq, true_and,
      decide_eq_true_eq]
    exact ⟨fun h => ⟨h.1.symm, h.2.symm⟩, fun h => ⟨h.1.symm, h.2.symm⟩⟩

theorem SockInfo.onWire_eq_iff (k : SockInfo) : k.onWire = k ↔ k.plain = true := by
  cases k <;> simp [onWire, plain, SocketAddr.onWire_eq_iff]

/-- Equal descriptions are read as equal ones. -/
theorem SockInfo.onWire_beq {k l : SockInfo} (h : (k == l) = true) :
    (k.onWire == l.onWire) = true := by
  rw [beq_iff_key] at h ⊢
  cases k <;> cases l <;> simp_all [onWire, key]

/-- Equal descriptions are plain together. -/
theorem SockInfo.plain_of_beq {k l : SockInfo} (h : (k == l) = true) (hl : l.plain = true) :
    k.plain = true := by
  cases k <;> cases l <;> first | rfl | cases h | skip
  all_goals
    rw [SockInfo.beq_iff_key] at h
    cases h
    exact hl

theorem ListenerInfo.onWire_eq_iff (li : ListenerInfo) :
    li.onWire = li ↔ li.sockInfo.plain = true := by
  obtain ⟨fd, k⟩ := li
  simp [onWire, SockInfo.onWire_eq_iff]

/-! ## Reading what was written -/

theorem decodes_port (p : UInt16) : Decodes (readNat 2) (leBytes 2 p.toNat) p.toNat :=
  decodes_readNat p.toNat_lt

theorem SocketAddr.decodes (a : SocketAddr) : Decodes SocketAddr.read a.write a.onWire := by
  cases a with
  | v4 a =>
    refine decodes_readVariant (by decide) ((decodes_readArray a.ip).bind ?_)
    simpa [onWire] using (decodes_port a.port).map fun port =>
      SocketAddr.v4 ⟨a.ip, UInt16.ofNat port⟩
  | v6 a =>
    refine decodes_readVariant (by decide) ((decodes_readArray a.ip).bind ?_)
    simpa [onWire] using (decodes_port a.port).map fun port =>
      SocketAddr.v6 ⟨a.ip, UInt16.ofNat port, 0, 0⟩

theorem PathBuf.decodes {p : PathBuf} {cs : List UInt8} (h : p.write = some cs) :
    Decodes PathBuf.read cs p := by
  unfold PathBuf.write at h
  split at h
  · rename_i hvalid
    have hbytes : (String.fromUTF8 p.bytes.toByteArray hvalid).toByteArray.data.toList
        = p.bytes := List.toList_data_toByteArray
    have hs : writeString (String.fromUTF8 p.bytes.toByteArray hvalid) = some cs := by
      rw [writeString, hbytes, h]
    have hd := (decodes_readString hs).map fun s => PathBuf.mk s.toByteArray.data.toList
    rw [hbytes] at hd
    exact hd
  · cases h

theorem SockInfo.decodes {k : SockInfo} {cs : List UInt8} (h : k.write = some cs) :
    Decodes SockInfo.read cs k.onWire := by
  cases k with
  | unix p =>
    obtain ⟨bs, hbs, rfl⟩ := Option.map_eq_some_iff.mp h
    exact decodes_readVariant (by decide)
      ((decodes_readOption (fun _ _ _ hw => PathBuf.decodes hw) hbs).map _)
  | tcp a =>
    cases h
    exact decodes_readVariant (by decide) (a.decodes.map _)
  | udp a =>
    cases h
    exact decodes_readVariant (by decide) (a.decodes.map _)
  | unboundUnixDatagram n =>
    obtain ⟨bs, hbs, rfl⟩ := Option.map_eq_some_iff.mp h
    exact decodes_readVariant (by decide) ((decodes_readString hbs).map _)
  | unixSeqpacket p =>
    obtain ⟨bs, hbs, rfl⟩ := Option.map_eq_some_iff.mp h
    exact decodes_readVariant (by decide)
      ((decodes_readOption (fun _ _ _ hw => PathBuf.decodes hw) hbs).map _)

theorem ListenerInfo.decodes {li : ListenerInfo} {cs : List UInt8} (h : li.write = some cs) :
    Decodes ListenerInfo.read cs li.onWire := by
  obtain ⟨bs, hbs, rfl⟩ := Option.map_eq_some_iff.mp h
  refine (decodes_readNat li.fd.toUInt32.toNat_lt).bind ?_
  simpa [onWire] using (SockInfo.decodes hbs).map fun k =>
    ListenerInfo.mk (UInt32.ofNat li.fd.toUInt32.toNat).toInt32 k

/-! ### No reader looks ahead -/

theorem SocketAddr.steady_read : SocketAddr.read.Steady := by
  refine steady_readVariant fun i => ?_
  split
  · exact (steady_readArray 4).bind fun ip => (steady_readNat 2).map _
  · exact (steady_readArray 16).bind fun ip => (steady_readNat 2).map _
  · exact Reader.steady_fail

theorem PathBuf.steady_read : PathBuf.read.Steady := steady_readString.map _

theorem SockInfo.steady_read : SockInfo.read.Steady := by
  refine steady_readVariant fun i => ?_
  split
  · exact (steady_readOption PathBuf.steady_read).map _
  · exact SocketAddr.steady_read.map _
  · exact SocketAddr.steady_read.map _
  · exact steady_readString.map _
  · exact (steady_readOption PathBuf.steady_read).map _
  · exact Reader.steady_fail

theorem ListenerInfo.steady_read : ListenerInfo.read.Steady :=
  (steady_readNat 4).bind fun _ => SockInfo.steady_read.map _

/-! ### The list -/

/-- The reader of lists reads what `send_fds` writes. -/
theorem decodes_serializeInto {fds : List ListenerInfo} {bs : List UInt8}
    (h : serializeInto fds = some bs) :
    Decodes (readSeq ListenerInfo.read) bs (fds.map ListenerInfo.onWire) :=
  decodes_readSeq (fun _ _ _ hcs => ListenerInfo.decodes hcs) h

/-- **What the child reads**: the same descriptors with the same descriptions, in the
same order, except that IPv6 addresses have lost their flow information and scope
identifier. -/
theorem deserializeFrom_serializeInto {fds : List ListenerInfo} {bs : List UInt8}
    (h : serializeInto fds = some bs) :
    deserializeFrom bs = some (fds.map ListenerInfo.onWire) := by
  rw [deserializeFrom, (decodes_serializeInto h).eq_some]
  rfl

/-- **A message that is cut off is rejected**, wherever it is cut. -/
theorem deserializeFrom_truncated {fds : List ListenerInfo} {bs cs : List UInt8}
    (h : serializeInto fds = some bs) (hpart : cs <+: bs) (hne : cs ≠ bs) :
    deserializeFrom cs = none := by
  rw [deserializeFrom, (decodes_serializeInto h).truncated
    (steady_readSeq ListenerInfo.steady_read) hpart hne]
  rfl

/-- **The round trip is exact if and only if no IPv6 address in the list carries flow
information or a scope identifier.** -/
theorem handover_roundtrip_iff {fds : List ListenerInfo} {bs : List UInt8}
    (h : serializeInto fds = some bs) :
    deserializeFrom bs = some fds ↔ ∀ li ∈ fds, li.sockInfo.plain = true := by
  rw [deserializeFrom_serializeInto h, Option.some.injEq]
  constructor
  · intro hmap li hli
    have hid : fds.map ListenerInfo.onWire = fds.map id := by rw [hmap, List.map_id]
    exact (ListenerInfo.onWire_eq_iff li).mp (List.map_inj_left.mp hid li hli)
  · intro hplain
    calc fds.map ListenerInfo.onWire
        = fds.map id := List.map_congr_left fun li hli =>
          (ListenerInfo.onWire_eq_iff li).mpr (hplain li hli)
      _ = fds := List.map_id fds

/-- The address `127.0.0.1` with a port. -/
def localhost (port : UInt16) : SocketAddr := .v4 ⟨⟨#[127, 0, 0, 1], rfl⟩, port⟩

/-- A listener on `127.0.0.1:8080`. -/
def loopbackListener : ListenerInfo := ⟨5, .tcp (localhost 8080)⟩

/-- A listener on the link-local address `[fe80::1%2]:80`, with scope identifier `2`. -/
def linkLocalListener : ListenerInfo :=
  ⟨5, .tcp (.v6 ⟨⟨#[0xFE, 0x80, 0, 0, 0, 0, 0, 0, 0, 0, 0, 0, 0, 0, 0, 1], rfl⟩, 80, 0, 2⟩)⟩

/-- The message for one IPv4 listener is read back as it was sent. -/
theorem handover_roundtrip_loopback :
    ∃ bs, serializeInto [loopbackListener] = some bs ∧
      (deserializeFrom bs = some [loopbackListener]
        ↔ ∀ li ∈ [loopbackListener], li.sockInfo.plain = true) :=
  ⟨_, rfl, handover_roundtrip_iff rfl⟩

/-- A scope identifier is lost on the way, and the child's entry no longer compares
equal to the description the socket was registered under. -/
theorem scoped_address_lost :
    ∃ bs, serializeInto [linkLocalListener] = some bs ∧
      deserializeFrom bs ≠ some [linkLocalListener] ∧
      ∃ li, deserializeFrom bs = some [li] ∧
        (li.sockInfo == linkLocalListener.sockInfo) = false := by
  have hs : ∃ bs, serializeInto [linkLocalListener] = some bs := ⟨_, rfl⟩
  obtain ⟨bs, hbs⟩ := hs
  have hread := deserializeFrom_serializeInto hbs
  have hne : (linkLocalListener.onWire.sockInfo == linkLocalListener.sockInfo) = false := by
    decide
  refine ⟨bs, hbs, fun hsame => ?_, linkLocalListener.onWire, hread, hne⟩
  rw [hread, Option.some.injEq, List.map_singleton, List.singleton_inj] at hsame
  rw [hsame, BEq.refl] at hne
  cases hne
