/-
# Messages between editions of the library

The parent of an upgrade and its child may have been built with different editions of the
library.  bincode does not describe what it writes: a variant of `SockInfo` is told by its
number alone.  So `registry.rs` asks that new variants be added at the end of the enum.

Here an edition is the table of the readers of its variants.

* `later_edition_reads` : an edition with further variants at the end reads every message,
  whoever wrote it, as this edition does.
* `earlier_edition_reads` : an edition that lacks the last variants reads a message of this
  edition as this edition does when no entry needs them, and otherwise nothing at all, so that
  no entry is taken for another.
-/
import Ecdysis.HandoverMessage

open ByteCodec

/-- The readers of the variants of `SockInfo`, in the order of the enum. -/
def SockInfo.readers : List (Reader SockInfo) :=
  [(readOption PathBuf.read).map .unix, SocketAddr.read.map .tcp, SocketAddr.read.map .udp,
    readString.map .unboundUnixDatagram, (readOption PathBuf.read).map .unixSeqpacket]

/-- The number of the variant. -/
def SockInfo.variant : SockInfo → ℕ
  | .unix _ => 0
  | .tcp _ => 1
  | .udp _ => 2
  | .unboundUnixDatagram _ => 3
  | .unixSeqpacket _ => 4

/-- This edition is the table of its variants. -/
theorem SockInfo.read_eq_readTable : SockInfo.read = readTable SockInfo.readers := by
  unfold SockInfo.read readTable
  congr 1
  funext i
  rcases i with _ | _ | _ | _ | _ | i <;> rfl

/-- What is written begins with the number of the variant. -/
theorem SockInfo.write_eq_writeVariant {k : SockInfo} {cs : List UInt8} (h : k.write = some cs) :
    ∃ payload, cs = writeVariant k.variant payload := by
  cases k with
  | tcp a | udp a =>
    cases h
    exact ⟨_, rfl⟩
  | unix p | unboundUnixDatagram n | unixSeqpacket p =>
    obtain ⟨bs, -, rfl⟩ := Option.map_eq_some_iff.mp h
    exact ⟨bs, rfl⟩

namespace Editions

variable {α : Type*}

/-- An entry of the list, in an edition with another type of sockets. -/
structure Entry (α : Type*) where
  fd : Int32
  sockInfo : α

/-- The entry as this edition has it. -/
def Entry.ofInfo (f : SockInfo → α) (li : ListenerInfo) : Entry α := ⟨li.fd, f li.sockInfo⟩

/-- `ListenerInfo` as read by an edition. -/
def Entry.read (r : Reader α) : Reader (Entry α) := (readNat 4).bind fun n =>
  r.map fun k => ⟨(UInt32.ofNat n).toInt32, k⟩

/-- `deserialize_from` of an edition. -/
def deserializeWith (r : Reader α) (bs : List UInt8) : Option (List (Entry α)) :=
  (readSeq (Entry.read r) bs).map Prod.fst

/-- An edition with the variants of this one, carried over by `f`, and more at the end. -/
def later (f : SockInfo → α) (more : List (Reader α)) : Reader α :=
  readTable (SockInfo.readers.map (Reader.map f) ++ more)

/-- An edition with the first `k` variants of this one. -/
def earlier (k : ℕ) : Reader SockInfo := readTable (SockInfo.readers.take k)

/-- A later edition reads what this one reads. -/
theorem follows_later (f : SockInfo → α) (more : List (Reader α)) :
    (Entry.read (later f more)).Follows (Entry.ofInfo f) ListenerInfo.read := by
  refine (Reader.Follows.refl (readNat 4)).bind fun n => ?_
  rw [SockInfo.read_eq_readTable]
  exact (follows_readTable f SockInfo.readers more).map fun k => rfl

/-- **Forward compatibility**: whatever this edition reads, from whatever bytes, a later
edition reads the same. -/
theorem later_edition_reads (f : SockInfo → α) (more : List (Reader α)) {bs : List UInt8}
    {fds : List ListenerInfo} (h : deserializeFrom bs = some fds) :
    deserializeWith (later f more) bs = some (fds.map (Entry.ofInfo f)) := by
  obtain ⟨⟨l, rest⟩, hread, rfl⟩ := Option.map_eq_some_iff.mp h
  rw [deserializeWith, (follows_later f more).readSeq bs l rest hread]
  rfl

/-- The number of a variant fits into its four bytes. -/
theorem variant_lt (k : SockInfo) : k.variant < 256 ^ 4 := by
  cases k <;> simp [SockInfo.variant]

/-- An earlier edition reads an entry whose variant it has. -/
theorem decodes_earlier {k : ℕ} {li : ListenerInfo} {cs : List UInt8} (h : li.write = some cs)
    (hk : li.sockInfo.variant < k) :
    Decodes (Entry.read (earlier k)) cs (Entry.ofInfo SockInfo.onWire li) := by
  obtain ⟨bs, hbs, rfl⟩ := Option.map_eq_some_iff.mp h
  have hinfo := SockInfo.decodes hbs
  obtain ⟨payload, rfl⟩ := SockInfo.write_eq_writeVariant hbs
  rw [SockInfo.read_eq_readTable] at hinfo
  refine (decodes_readNat li.fd.toUInt32.toNat_lt).bind ?_
  simpa [Entry.ofInfo, earlier] using (decodes_readTable_take (variant_lt _) hk hinfo).map fun s =>
    Entry.mk (UInt32.ofNat li.fd.toUInt32.toNat).toInt32 s

/-- An earlier edition rejects an entry whose variant it does not have. -/
theorem rejects_earlier {k : ℕ} {li : ListenerInfo} {cs : List UInt8} (h : li.write = some cs)
    (hk : k ≤ li.sockInfo.variant) : (Entry.read (earlier k)).Rejects cs := by
  obtain ⟨bs, hbs, rfl⟩ := Option.map_eq_some_iff.mp h
  obtain ⟨payload, rfl⟩ := SockInfo.write_eq_writeVariant hbs
  refine (decodes_readNat li.fd.toUInt32.toNat_lt).bind_rejects (Reader.Rejects.bind ?_)
  exact rejects_readTable (variant_lt _) ((List.length_take_le _ _).trans hk) payload

/-- **Backward**: an earlier edition reads a message of this one when it has the variants of
all entries, and otherwise nothing. -/
theorem earlier_edition_reads (k : ℕ) {fds : List ListenerInfo} {bs : List UInt8}
    (h : serializeInto fds = some bs) :
    deserializeWith (earlier k) bs =
      if ∀ li ∈ fds, li.sockInfo.variant < k then some (fds.map (Entry.ofInfo SockInfo.onWire))
      else none := by
  unfold deserializeWith
  split
  · rename_i hall
    rw [Decodes.eq_some (decodes_readSeq
      (fun li hli cs hcs => decodes_earlier hcs (hall li hli)) h)]
    rfl
  · rename_i hsome
    push Not at hsome
    obtain ⟨li, hli, hk⟩ := hsome
    have hrejects := rejects_readSeq (r := Entry.read (earlier k)) (fun li _ cs hcs => ?_)
      ⟨li, hli, fun cs hcs => rejects_earlier hcs hk⟩ h []
    · rw [List.append_nil] at hrejects
      rw [hrejects]
      rfl
    · by_cases hlt : li.sockInfo.variant < k
      · exact .inl ⟨_, decodes_earlier hcs hlt⟩
      · exact .inr (rejects_earlier hcs (by omega))

/-- **Editions agree on a message** as far as they have its variants, if variants are added at
the end only. -/
theorem editions_agree (f : SockInfo → α) (more : List (Reader α)) (k : ℕ)
    {fds : List ListenerInfo} {bs : List UInt8} (h : serializeInto fds = some bs) :
    deserializeWith (later f more) bs =
      some (fds.map (Entry.ofInfo fun s => f s.onWire)) ∧
    deserializeWith (earlier k) bs =
      if ∀ li ∈ fds, li.sockInfo.variant < k then some (fds.map (Entry.ofInfo SockInfo.onWire))
      else none := by
  refine ⟨?_, earlier_edition_reads k h⟩
  rw [later_edition_reads f more (deserializeFrom_serializeInto h), List.map_map]
  rfl

/-- A TCP socket, and a seqpacket socket, which came last to the enum. -/
def withSeqpacket : List ListenerInfo := [loopbackListener, ⟨6, .unixSeqpacket none⟩]

/-- An edition with one more variant reads the list, one without seqpacket sockets does not. -/
theorem editions_agree_seqpacket :
    ∃ bs, serializeInto withSeqpacket = some bs ∧
      deserializeWith (later some [readString.map fun _ => none]) bs =
        some [⟨5, some (.tcp (localhost 8080))⟩, ⟨6, some (.unixSeqpacket none)⟩] ∧
      deserializeWith (earlier 4) bs = none := by
  have hwrite : (serializeInto withSeqpacket).isSome = true := by decide +kernel
  obtain ⟨bs, hbs⟩ := Option.isSome_iff_exists.mp hwrite
  obtain ⟨hlater, hearlier⟩ := editions_agree some [readString.map fun _ => none] 4 hbs
  refine ⟨bs, hbs, hlater, ?_⟩
  rw [hearlier, if_neg]
  intro hall
  exact absurd (hall _ (List.mem_cons_of_mem _ List.mem_cons_self)) (by decide)

/-- With a new variant at the front instead, a TCP socket is read as a Unix socket. -/
example : ((serializeInto [loopbackListener]).bind
    (deserializeWith (readTable (Reader.fail :: SockInfo.readers)))).map
      (List.map fun e => e.sockInfo.variant) = some [0] := by
  decide +kernel

end Editions
