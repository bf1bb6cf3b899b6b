/-
# The handshake of an upgrade

A parent and its child talk over two pipes.  `send_fds` writes the list of sockets to the
first, entry by entry and without a buffer of its own, while the child is already reading;
the child answers on the second, once it has the list and its `Ecdysis::ready` is called.
The first pipe holds `capacity` bytes, so that the writer may have to wait for the reader.

`World` is a family of calls and children as in `ChildProgram`, with the first pipe of each
call and what its child has read from it.  The children use the library: they take the list
before they can call `ready`.  They may stop at any point, or die.  The ends that a child is
passed, the read end of the first pipe and the write end of the second, no other process
gets: no command is started that would keep one of them open when the child has died.

* `deserializeFrom_prefix` : from what a writer has written so far, even from a writer that
  will fail, nothing can be read but the whole list.
* `Wire.Facts` : what is in the pipe, what has been read and what is still to be written make
  up the message; a child that has answered has closed the first pipe.
* `handshake_agreement` : when a call returns `Ok(())`, its child has exactly the list that the
  call was made with, as far as it can be written.
* `upgrade_returns` : no call waits for ever, neither for the answer nor for its writer,
  whatever the capacity of the pipe, and whether the child answers, stays silent or dies.
-/
import Ecdysis.ChildProgram
import Ecdysis.HandoverMessage
import Ecdysis.UpgradeOutcome
import Ecdysis.UpgradeProgress

open ByteCodec Executioner

/-! ## What is on its way -/

/-- What `serialize_into` has written of a description when it gives up: a path that is no
text comes after the variant and the tag of the option. -/
def SockInfo.cut : SockInfo → List UInt8
  | .unix _ => writeVariant 0 (leBytes 1 1)
  | .tcp a => writeVariant 1 a.write
  | .udp a => writeVariant 2 a.write
  | .unboundUnixDatagram _ => writeVariant 3 []
  | .unixSeqpacket _ => writeVariant 4 (leBytes 1 1)

/-- What `serialize_into` has written of an entry when it gives up. -/
def ListenerInfo.cut (li : ListenerInfo) : List UInt8 :=
  leBytes 4 li.fd.toUInt32.toNat ++ li.sockInfo.cut

/-- The entries as far as they are written: the first that cannot be ends the message. -/
def entries : List ListenerInfo → List UInt8
  | [] => []
  | li :: fds =>
    match li.write with
    | some bs => bs ++ entries fds
    | none => li.cut

/-- Everything that `send_fds` writes if nobody closes the pipe. -/
def message (fds : List ListenerInfo) : List UInt8 :=
  if fds.length < lengthBound then leBytes 8 fds.length ++ entries fds else []

theorem entries_of_writeAll {fds : List ListenerInfo} {bs : List UInt8}
    (h : writeAll ListenerInfo.write fds = some bs) : entries fds = bs := by
  induction fds generalizing bs with
  | nil =>
    cases h
    rfl
  | cons li fds ih =>
    rw [writeAll, Option.bind_eq_some_iff] at h
    obtain ⟨x, hx, h⟩ := h
    obtain ⟨y, hy, rfl⟩ := Option.map_eq_some_iff.mp h
    rw [entries, hx, ih hy]

/-- A list that can be written is written. -/
theorem message_of_serializeInto {fds : List ListenerInfo} {bs : List UInt8}
    (h : serializeInto fds = some bs) : message fds = bs := by
  unfold serializeInto writeSeq at h
  split at h
  · rename_i hlen
    obtain ⟨x, hx, rfl⟩ := Option.map_eq_some_iff.mp h
    rw [message, if_pos hlen, entries_of_writeAll hx]
  · cases h

/-- Nothing can be read from an entry that ends before its path. -/
theorem ListenerInfo.read_cut {li : ListenerInfo} (h : li.write = none) :
    ListenerInfo.read li.cut = none := by
  obtain ⟨fd, k⟩ := li
  have hk : k.write = none := by simpa [ListenerInfo.write] using h
  have hhead : ∀ cs, ListenerInfo.read (leBytes 4 fd.toUInt32.toNat ++ cs) =
      (SockInfo.read.map fun k => ListenerInfo.mk (UInt32.ofNat fd.toUInt32.toNat).toInt32 k)
        cs := by
    intro cs
    rw [ListenerInfo.read, Reader.bind, decodes_readNat fd.toUInt32.toNat_lt]
    rfl
  show ListenerInfo.read (leBytes 4 fd.toUInt32.toNat ++ k.cut) = none
  rw [hhead]
  cases k with
  | unix p => rfl
  | unixSeqpacket p => rfl
  | unboundUnixDatagram n => rfl
  | tcp a => cases hk
  | udp a => cases hk

/-- Nothing can be read from entries that have been broken off. -/
theorem times_entries {fds : List ListenerInfo} (h : writeAll ListenerInfo.write fds = none) :
    ListenerInfo.read.times fds.length (entries fds) = none := by
  induction fds with
  | nil => cases h
  | cons li fds ih =>
    cases hw : li.write with
    | none =>
      rw [entries, hw]
      simp only [List.length_cons, Reader.times, Reader.bind, ListenerInfo.read_cut hw,
        Option.bind_none]
    | some bs =>
      have hrest : writeAll ListenerInfo.write fds = none := by
        simpa [writeAll, hw] using h
      rw [entries, hw, List.length_cons, Reader.times, Reader.bind, ListenerInfo.decodes hw,
        Option.bind_some]
      simp only [Reader.map, Reader.bind, ih hrest, Option.bind_none]

/-- **What can be read from a message on its way**: the whole list, when all of it has arrived,
and otherwise nothing. -/
theorem deserializeFrom_prefix {fds l : List ListenerInfo} {got : List UInt8}
    (hgot : got <+: message fds) (h : deserializeFrom got = some l) :
    serializeInto fds = some got ∧ l = fds.map ListenerInfo.onWire := by
  cases hbs : serializeInto fds with
  | some bs =>
    rw [message_of_serializeInto hbs] at hgot
    have heq : got = bs := by
      by_contra hne
      rw [deserializeFrom_truncated hbs hgot hne] at h
      cases h
    subst heq
    rw [deserializeFrom_serializeInto hbs, Option.some.injEq] at h
    exact ⟨rfl, h.symm⟩
  | none =>
    -- the reader would succeed on the whole message too, which breaks off
    exfalso
    obtain ⟨⟨l', rest⟩, hread, -⟩ := Option.map_eq_some_iff.mp h
    obtain ⟨more, hmore⟩ := hgot
    have hlong := steady_readSeq ListenerInfo.steady_read got l' rest hread more
    rw [hmore] at hlong
    unfold message at hlong
    split at hlong
    · rename_i hlen
      have hall : writeAll ListenerInfo.write fds = none := by
        simpa [serializeInto, writeSeq, hlen] using hbs
      rw [readSeq, Reader.bind, decodes_readNat hlen, Option.bind_some,
        times_entries hall] at hlong
      cases hlong
    · cases hlong

namespace Handshake

/-! ## The first pipe -/

/-- What the child has of the list: bytes it has read, or the list they stand for. -/
inductive Kid
  | inheriting (got : List UInt8)
  | inherited (fds : List ListenerInfo)

/-- The list of a call on its way: what the call was made with, the bytes that are not
written yet, those in the pipe, whether the pipe still has a reader, and what the child
has. -/
structure Wire where
  fds : List ListenerInfo
  toSend : List UInt8
  buffer : List UInt8
  readerOpen : Bool
  kid : Kid

/-- The list of a call that is being made. -/
def Wire.make (fds : List ListenerInfo) : Wire := ⟨fds, message fds, [], false, .inheriting []⟩

/-- The calls, their children, and the first pipe of each; only the child of a call has the
ends of its pipes that are passed on. -/
structure World where
  family : Family
  wire : ℕ → Wire

/-- What can happen: call `c` is made; something in the family; the thread `send_fds` of call
`c` takes a step; the child of call `c` reads a byte of the list, or has read it. -/
inductive Event
  | call (c : ℕ) (fds : List ListenerInfo)
  | family (e : Family.Event)
  | send (c : ℕ)
  | read (c : ℕ)
  | finish (c : ℕ)

namespace World

/-- The child has its list. -/
def hasList (w : World) (c : ℕ) : Bool :=
  match (w.wire c).kid with
  | .inherited _ => true
  | .inheriting _ => false

/-- A call is made with a list; `send_fds` goes through its pipe; and a child has nothing to
say before it has its list. -/
def allows (w : World) : Family.Event → Bool
  | .thread (.act c .main) => (w.family.sys.comp c).main ≠ .start
  | .thread (.act _ (.send _)) => false
  | .ready c | .close c => w.hasList c
  | _ => true

/-- The pipe after an event of the family: it has a reader from the spawn to the death of
the child, at most. -/
def wireAfter (w : World) : Family.Event → ℕ → Wire
  | .thread (.act c .main) =>
    if (w.family.sys.comp c).main = .setup .spawn then
      Function.update w.wire c { w.wire c with readerOpen := true }
    else w.wire
  | .exit c => Function.update w.wire c { w.wire c with readerOpen := false }
  | _ => w.wire

/-- The thread `send_fds` ends. -/
def endSend (w : World) (c : ℕ) (err : Option String) : Option World :=
  (w.family.step (.thread (.act c (.send err)))).map fun F => { w with family := F }

/-- One step of `send_fds`: it writes a byte, waits while the pipe is full, fails when nobody
reads, and ends after the last byte. -/
def send (capacity : ℕ) (w : World) (c : ℕ) : Option World :=
  if (w.family.sys.comp c).send = .running then
    match (w.wire c).toSend with
    | [] =>
      w.endSend c (if (serializeInto (w.wire c).fds).isSome then none
        else some "Custom(\"path contains invalid UTF-8 characters\")")
    | b :: rest =>
      if (w.wire c).readerOpen then
        if (w.wire c).buffer.length < capacity then
          some { w with
            wire := Function.update w.wire c
              { w.wire c with toSend := rest, buffer := (w.wire c).buffer ++ [b] } }
        else none
      else
        w.endSend c (some "Io(Os \x7b code: 32, kind: BrokenPipe, message: \"Broken pipe\" \x7d)")
  else none

/-- `deserialize_from` takes another byte, as long as it needs one. -/
def read (w : World) (c : ℕ) : Option World :=
  match (w.wire c).kid, (w.wire c).buffer with
  | .inheriting got, b :: rest =>
    if (w.family.sys.comp c).child.alive ∧ deserializeFrom got = none then
      some { w with
        wire := Function.update w.wire c
          { w.wire c with buffer := rest, kid := .inheriting (got ++ [b]) } }
    else none
  | _, _ => none

/-- `deserialize_from` returns, and drops its end of the pipe. -/
def finish (w : World) (c : ℕ) : Option World :=
  match (w.wire c).kid with
  | .inheriting got =>
    if (w.family.sys.comp c).child.alive then
      (deserializeFrom got).map fun fds =>
        { w with
          wire := Function.update w.wire c
            { w.wire c with readerOpen := false, buffer := [], kid := .inherited fds } }
    else none
  | .inherited _ => none

/-- One step. -/
def step (capacity : ℕ) (w : World) : Event → Option World
  | .call c fds =>
    if (w.family.sys.comp c).main = .start then
      (w.family.step (.thread (.act c .main))).map fun F =>
        ⟨F, Function.update w.wire c (.make fds)⟩
    else none
  | .family e => if w.allows e then (w.family.step e).map fun F => ⟨F, w.wireAfter e⟩ else none
  | .send c => w.send capacity c
  | .read c => w.read c
  | .finish c => w.finish c

end World

/-- No call has been made. -/
def World.init : World := ⟨.init, fun _ => .make []⟩

/-- All interleavings, with pipes that hold `capacity` bytes. -/
def world (capacity : ℕ) : TransitionSystem World Event where
  Init := fun w => w = .init
  step := World.step capacity

variable {capacity : ℕ} {w w' : World} {e : Event} {c d : ℕ}

/-- **What each event does**: something in the family, or to one pipe. -/
theorem step_eq_some (h : w.step capacity e = some w') :
    (∃ c fds, e = .call c fds ∧ (w.family.sys.comp c).main = .start ∧
      w.family.step (.thread (.act c .main)) = some w'.family ∧
      w'.wire = Function.update w.wire c (.make fds)) ∨
    (∃ e', e = .family e' ∧ w.allows e' = true ∧ w.family.step e' = some w'.family ∧
      w'.wire = w.wireAfter e') ∨
    (∃ c err, e = .send c ∧
      w.family.step (.thread (.act c (.send err))) = some w'.family ∧ w'.wire = w.wire) ∨
    (∃ c b rest, e = .send c ∧ (w.wire c).toSend = b :: rest ∧ (w.wire c).readerOpen = true ∧
      (w.family.sys.comp c).send = .running ∧ w'.family = w.family ∧
      w'.wire = Function.update w.wire c
        { w.wire c with toSend := rest, buffer := (w.wire c).buffer ++ [b] }) ∨
    (∃ c got b rest, e = .read c ∧ (w.wire c).kid = .inheriting got ∧
      (w.wire c).buffer = b :: rest ∧ (w.family.sys.comp c).child.alive = true ∧
      w'.family = w.family ∧
      w'.wire = Function.update w.wire c
        { w.wire c with buffer := rest, kid := .inheriting (got ++ [b]) }) ∨
    (∃ c got fds, e = .finish c ∧ (w.wire c).kid = .inheriting got ∧
      (w.family.sys.comp c).child.alive = true ∧ deserializeFrom got = some fds ∧
      w'.family = w.family ∧
      w'.wire = Function.update w.wire c
        { w.wire c with readerOpen := false, buffer := [], kid := .inherited fds }) := by
  cases e with
  | call c fds =>
    simp only [World.step] at h
    split at h
    · rename_i hstart
      obtain ⟨F, hF, rfl⟩ := Option.map_eq_some_iff.mp h
      exact .inl ⟨c, fds, rfl, hstart, hF, rfl⟩
    · cases h
  | family e' =>
    simp only [World.step] at h
    split at h
    · rename_i hallows
      obtain ⟨F, hF, rfl⟩ := Option.map_eq_some_iff.mp h
      exact .inr (.inl ⟨e', rfl, hallows, hF, rfl⟩)
    · cases h
  | send c =>
    simp only [World.step, World.send] at h
    split at h
    · rename_i hrunning
      split at h
      · obtain ⟨F, hF, rfl⟩ := Option.map_eq_some_iff.mp h
        exact .inr (.inr (.inl ⟨c, _, rfl, hF, rfl⟩))
      · rename_i b rest hsend
        split at h
        · rename_i hopen
          split at h <;> cases h
          exact .inr (.inr (.inr (.inl ⟨c, b, rest, rfl, hsend, hopen, hrunning, rfl, rfl⟩)))
        · obtain ⟨F, hF, rfl⟩ := Option.map_eq_some_iff.mp h
          exact .inr (.inr (.inl ⟨c, _, rfl, hF, rfl⟩))
    · cases h
  | read c =>
    simp only [World.step, World.read] at h
    split at h
    · rename_i got b rest hkid hbuffer
      split at h <;> cases h
      rename_i hc
      exact .inr (.inr (.inr (.inr (.inl
        ⟨c, got, b, rest, rfl, hkid, hbuffer, hc.1, rfl, rfl⟩))))
    · cases h
  | finish c =>
    simp only [World.step, World.finish] at h
    split at h
    · rename_i got hkid
      split at h
      · rename_i halive
        obtain ⟨fds, hfds, rfl⟩ := Option.map_eq_some_iff.mp h
        exact .inr (.inr (.inr (.inr (.inr ⟨c, got, fds, rfl, hkid, halive, hfds, rfl, rfl⟩))))
      · cases h
    · cases h

/-! ## What is in the pipe -/

/-- A step of another thread than the main thread leaves a child alive or not as it was, and
does not unmake it. -/
theorem child_of_thread {g g' : Shared} {k k' : Call} {a : Act} (ha : ∀ x, a ≠ .child x)
    (hspawn : a = .main → k.main ≠ .setup .spawn)
    (h : k.act g a = some (g', k')) :
    (k'.child = .unborn → k.child = .unborn) ∧ k'.child.alive = k.child.alive := by
  rcases Call.act_cases h with
    ⟨rfl, hs⟩ | ⟨-, ⟨msg, -, hs⟩ | ⟨-, hs⟩ | ⟨-, hs⟩ | ⟨err, -, hs⟩ | ⟨x, rfl, hs⟩⟩
  · rcases (Call.stepMain_moves hs).2 with ⟨hc, -⟩ | ⟨hm, -⟩
    · rw [hc]
      exact ⟨id, rfl⟩
    · exact absurd hm (hspawn rfl)
  · unfold Call.stepFail at hs
    split at hs <;> cases hs
    exact ⟨id, rfl⟩
  · have hborn := (Call.sameEnds_stepWaitChild hs).born
    exact ⟨fun hunborn => by_contra fun hne => hborn hne hunborn,
      (Call.stepWaitChild_eq_some hs).1⟩
  · rw [(Call.workers_stepWaitReady hs).1]
    exact ⟨id, rfl⟩
  · unfold Call.stepSend at hs
    split at hs <;> cases hs
    exact ⟨id, rfl⟩
  · exact absurd rfl (ha x)

/-- **How a child moves in a step of the family**: it is spawned, or it stays what it is, and
alive unless it exits. -/
theorem family_moves {F F' : Family} {e : Family.Event} (h : F.step e = some F') (d : ℕ) :
    (e = .thread (.act d .main) ∧ (F.sys.comp d).main = .setup .spawn ∧
      (F'.sys.comp d).child = .running ∧ F'.prog d = F.prog d) ∨
    ((e = .thread (.act d .main) → (F.sys.comp d).main ≠ .setup .spawn) ∧
      ((F'.sys.comp d).child = .unborn → (F.sys.comp d).child = .unborn) ∧
      (e = .exit d → (F'.sys.comp d).child.alive = false) ∧
      (e ≠ .exit d → (F'.sys.comp d).child.alive = (F.sys.comp d).child.alive) ∧
      (F'.prog d = F.prog d ∨ e = .ready d ∨ e = .close d ∨ F.prog d ≠ .fresh)) := by
  rcases Family.step_eq_some h with ⟨e', s, rfl, hchild, hs, rfl⟩ | ⟨c, rfl, -, -, rfl⟩ |
    ⟨c, a, s, p, hs, rfl, hcases⟩
  · rcases step_cases hs with ⟨c, a, g', k', rfl, hact, rfl⟩ | ⟨ms, rfl, rfl⟩
    · by_cases hd : d = c
      · subst hd
        have ha : ∀ x, a ≠ .child x := by
          rintro x rfl
          cases hchild
        by_cases hspawn : a = .main ∧ (F.sys.comp d).main = .setup .spawn
        · obtain ⟨rfl, hm⟩ := hspawn
          refine .inl ⟨rfl, hm, ?_, rfl⟩
          have hact' : (F.sys.comp d).stepMain F.sys.shared = some (g', k') := hact
          simp only [Call.stepMain, hm, Option.some.injEq, Prod.mk.injEq] at hact'
          obtain ⟨-, rfl⟩ := hact'
          simp [Call.setupDone]
        · have hnot : a = .main → (F.sys.comp d).main ≠ .setup .spawn :=
            fun ha hm => hspawn ⟨ha, hm⟩
          obtain ⟨hunborn, halive⟩ := child_of_thread ha hnot hact
          refine .inr ⟨fun he => hnot (by cases he; rfl), ?_, by simp, fun _ => ?_, .inl rfl⟩
          · simpa using hunborn
          · simpa using halive
      · refine .inr ⟨fun he => ?_, ?_, by simp, fun _ => ?_, .inl rfl⟩
        · cases he
          exact absurd rfl hd
        · simp [Function.update_of_ne hd]
        · simp [Function.update_of_ne hd]
    · exact .inr ⟨by simp, id, by simp, fun _ => rfl, .inl rfl⟩
  · refine .inr ⟨by simp, id, by simp, fun _ => rfl, ?_⟩
    by_cases hd : d = c
    · subst hd
      exact .inr (.inl rfl)
    · exact .inl (Function.update_of_ne hd _ _)
  · obtain ⟨k', hk', rfl⟩ := step_child hs
    obtain ⟨-, hborn, hact⟩ := Call.stepChild_eq_some hk'
    have hkeep : a ≠ .exit → k'.child = (F.sys.comp c).child := by
      rcases hact with ⟨b, -, -, hc, -⟩ | ⟨-, hc, -⟩ | ⟨ha, -⟩
      · exact fun _ => hc
      · exact fun _ => hc
      · exact fun hne => absurd ha hne
    by_cases hd : d = c
    · subst hd
      simp only [Function.update_self]
      rcases hcases with ⟨b, rest, rfl, rfl, hprog, rfl⟩ | ⟨rfl, rfl, hprog, rfl⟩ |
        ⟨rest, rfl, rfl, hprog, rfl⟩ | ⟨rfl, rfl, rfl⟩
      · exact .inr ⟨by simp, fun hu => absurd hu hborn, by simp, fun _ => by rw [hkeep (by simp)],
          .inr (.inr (.inr (by simp [hprog])))⟩
      · exact .inr ⟨by simp, fun hu => absurd hu hborn, by simp, fun _ => by rw [hkeep (by simp)],
          .inr (.inr (.inl rfl))⟩
      · exact .inr ⟨by simp, fun hu => absurd hu hborn, by simp, fun _ => by rw [hkeep (by simp)],
          .inr (.inr (.inr (by simp [hprog])))⟩
      · refine .inr ⟨by simp, fun hu => absurd hu hborn, fun _ => ?_, by simp, .inl rfl⟩
        rcases hact with ⟨b, hb, -⟩ | ⟨hb, -⟩ | ⟨-, hdead, -⟩
        · cases hb
        · cases hb
        · rw [hdead]
          rfl
    · have hne : e ≠ .thread (.act d .main) ∧ e ≠ .exit d := by
        rcases hcases with ⟨b, rest, rfl, -⟩ | ⟨rfl, -⟩ | ⟨rest, rfl, -⟩ | ⟨rfl, -⟩ <;>
          simp [Ne.symm hd]
      simp only [Function.update_of_ne hd]
      exact .inr ⟨fun he => absurd he hne.1, id, fun he => absurd he hne.2, fun _ => trivial,
        .inl trivial⟩

/-- What a child has of its list: nothing before it is born; what it has read, what is in the
pipe and what is still to come make up the message; it reads the whole list, and closes the
pipe; before that it holds both pipes, as long as it lives. -/
structure Wire.Facts (w : World) (c : ℕ) : Prop where
  unborn : (w.family.sys.comp c).child = .unborn → w.hasList c = false
  flow : ∀ got, (w.wire c).kid = .inheriting got →
    got ++ (w.wire c).buffer ++ (w.wire c).toSend = message (w.wire c).fds
  inherited : ∀ l, (w.wire c).kid = .inherited l → (w.wire c).readerOpen = false ∧
    (serializeInto (w.wire c).fds).isSome = true ∧ l = (w.wire c).fds.map ListenerInfo.onWire
  fresh : w.hasList c = false → w.family.prog c = .fresh ∧
    ((w.family.sys.comp c).child.alive = true → (w.wire c).readerOpen = true)
  gone : (w.family.sys.comp c).child.alive = false → (w.wire c).readerOpen = false

/-- The family is sound, and so is every pipe. -/
structure World.Sound (w : World) : Prop where
  family : w.family.Sound
  facts : ∀ c, Wire.Facts w c

theorem World.sound_init : World.init.Sound :=
  ⟨Family.sound_init, fun _ =>
    ⟨fun _ => rfl, fun got hgot => by cases hgot; rfl, fun l hl => (nomatch hl),
      fun _ => ⟨rfl, fun halive => (nomatch halive)⟩, fun _ => rfl⟩⟩

/-- Nothing that matters to a call has moved. -/
theorem Wire.Facts.congr (hw : Wire.Facts w d) (hwire : w'.wire d = w.wire d)
    (hunborn : (w'.family.sys.comp d).child = .unborn → (w.family.sys.comp d).child = .unborn)
    (halive : (w'.family.sys.comp d).child.alive = (w.family.sys.comp d).child.alive)
    (hprog : w.hasList d = false → w'.family.prog d = w.family.prog d) : Wire.Facts w' d := by
  have hlist : w'.hasList d = w.hasList d := by
    unfold World.hasList
    rw [hwire]
  refine ⟨?_, ?_, ?_, ?_, ?_⟩
  · rw [hlist]
    exact fun h => hw.unborn (hunborn h)
  · rw [hwire]
    exact hw.flow
  · rw [hwire]
    exact hw.inherited
  · rw [hlist, hwire, halive]
    exact fun h => ⟨(hprog h).trans (hw.fresh h).1, (hw.fresh h).2⟩
  · rw [hwire, halive]
    exact hw.gone

/-- Only a spawn and an exit move the pipe of a call in a step of the family. -/
theorem World.wireAfter_eq {e' : Family.Event}
    (hspawn : e' = .thread (.act d .main) → (w.family.sys.comp d).main ≠ .setup .spawn)
    (hexit : e' ≠ .exit d) : w.wireAfter e' d = w.wire d := by
  unfold World.wireAfter
  split
  · rename_i c
    split
    · rename_i hm
      refine Function.update_of_ne ?_ _ _
      rintro rfl
      exact hspawn rfl hm
    · rfl
  · rename_i c
    refine Function.update_of_ne ?_ _ _
    rintro rfl
    exact hexit rfl
  · rfl

/-- What is allowed does not move a child that has no list yet. -/
theorem Wire.Facts.still {e' : Family.Event} (hw : Wire.Facts w d)
    (hallows : w.allows e' = true ∨ ∃ c a, e' = .thread (.act c a))
    (hprog : w'.family.prog d = w.family.prog d ∨ e' = .ready d ∨ e' = .close d ∨
      w.family.prog d ≠ .fresh)
    (hlist : w.hasList d = false) : w'.family.prog d = w.family.prog d := by
  have hnot : e' ≠ .ready d ∧ e' ≠ .close d := by
    constructor <;>
    · rintro rfl
      rcases hallows with hal | ⟨c, err, he⟩
      · rw [show w.hasList d = true from hal] at hlist
        cases hlist
      · cases he
  rcases hprog with hsame | he | he | hne
  · exact hsame
  · exact absurd he hnot.1
  · exact absurd he hnot.2
  · exact absurd (hw.fresh hlist).1 hne

/-- A step of the family keeps the facts. -/
theorem Wire.Facts.family {e' : Family.Event} (hw : Wire.Facts w d) (hsound : w.family.Sound)
    (hallows : w.allows e' = true ∨ ∃ c a, e' = .thread (.act c a))
    (hF : w.family.step e' = some w'.family) (hwire : w'.wire d = w.wireAfter e' d) :
    Wire.Facts w' d := by
  rcases family_moves hF d with ⟨rfl, hspawn, hrunning, hprog⟩ |
    ⟨hspawn, hunborn, hexit, halive, hprog⟩
  -- the child is spawned: nothing has been read yet, and its pipe has a reader
  · have hborn : (w.family.sys.comp d).child = .unborn := by
      have hmain := (coherent_of_reachable hsound.sys d).main
      unfold Call.MainFacts at hmain
      rw [hspawn] at hmain
      exact hmain.2.2.mpr (by decide)
    have hlist := hw.unborn hborn
    have hwire' : w'.wire d = { w.wire d with readerOpen := true } := by
      rw [hwire]
      simp [World.wireAfter, hspawn]
    refine ⟨fun hu => ?_, ?_, fun l hl => ?_, fun _ => ⟨?_, fun _ => ?_⟩, fun hdead => ?_⟩
    · rw [hrunning] at hu
      cases hu
    · rw [hwire']
      exact hw.flow
    · have hkid : (w.wire d).kid = .inherited l := by
        rw [hwire'] at hl
        exact hl
      simp [World.hasList, hkid] at hlist
    · exact hprog.trans (hw.fresh hlist).1
    · rw [hwire']
    · rw [hrunning] at hdead
      cases hdead
  · by_cases he : e' = .exit d
    · subst he
      have hwire' : w'.wire d = { w.wire d with readerOpen := false } := by
        rw [hwire]
        simp [World.wireAfter]
      have hlist : w'.hasList d = w.hasList d := by simp only [World.hasList, hwire']
      refine ⟨fun hu => ?_, ?_, fun l hl => ?_, fun hno => ⟨?_, fun hal => ?_⟩, fun _ => ?_⟩
      · rw [hlist]
        exact hw.unborn (hunborn hu)
      · rw [hwire']
        exact hw.flow
      · rw [hwire'] at hl ⊢
        exact ⟨rfl, (hw.inherited l hl).2⟩
      · rw [hlist] at hno
        exact (hw.still hallows hprog hno).trans (hw.fresh hno).1
      · rw [hexit rfl] at hal
        cases hal
      · rw [hwire']
    · exact hw.congr (hwire.trans (World.wireAfter_eq hspawn he)) hunborn (halive he)
        (hw.still hallows hprog)

/-- A call that has not been made has no child. -/
theorem unborn_of_start (hw : w.Sound) (hstart : (w.family.sys.comp c).main = .start) :
    (w.family.sys.comp c).child = .unborn := by
  have hmain := (coherent_of_reachable hw.family.sys c).main
  unfold Call.MainFacts at hmain
  rw [hstart] at hmain
  exact hmain.2.2

/-- A call is made. -/
theorem Wire.Facts.make {fds : List ListenerInfo} (hw : w.Sound)
    (hstart : (w.family.sys.comp d).main = .start)
    (hF : w.family.step (.thread (.act d .main)) = some w'.family)
    (hwire : w'.wire d = .make fds) : Wire.Facts w' d := by
  have hborn := unborn_of_start hw hstart
  have hfresh : w.family.prog d = .fresh := by
    by_contra hne
    exact (hw.family.facts d).born hne hborn
  rcases family_moves hF d with ⟨-, hspawn, -, -⟩ | ⟨-, -, -, halive, hprog⟩
  · rw [hstart] at hspawn
    cases hspawn
  · have hdead : (w'.family.sys.comp d).child.alive = false := by
      rw [halive (by simp), hborn]
      rfl
    refine ⟨fun _ => ?_, fun got hgot => ?_, fun l hl => ?_, fun _ => ⟨?_, fun hal => ?_⟩,
      fun _ => ?_⟩
    · simp [World.hasList, hwire, Wire.make]
    · simp only [hwire, Wire.make, Kid.inheriting.injEq] at hgot ⊢
      subst hgot
      rfl
    · simp [hwire, Wire.make] at hl
    · rcases hprog with hsame | he | he | hne
      · exact hsame.trans hfresh
      · cases he
      · cases he
      · exact absurd hfresh hne
    · rw [hdead] at hal
      cases hal
    · simp [hwire, Wire.make]

/-- The family stands still, and one pipe moves. -/
theorem World.Sound.move (hw : w.Sound) (hF : w'.family = w.family) {x : Wire}
    (hwire : w'.wire = Function.update w.wire c x) (hx : Wire.Facts w' c) : w'.Sound := by
  refine ⟨hF ▸ hw.family, fun d => ?_⟩
  by_cases hd : d = c
  · exact hd ▸ hx
  · refine (hw.facts d).congr ?_ ?_ ?_ ?_
    · rw [hwire, Function.update_of_ne hd]
    · rw [hF]
      exact id
    · rw [hF]
    · rw [hF]
      exact fun _ => rfl

/-- **Step lemma**: every step keeps what is known of the pipes. -/
theorem World.Sound.step (hw : w.Sound) (h : w.step capacity e = some w') : w'.Sound := by
  rcases step_eq_some h with ⟨c, fds, rfl, hstart, hF, hwire⟩ | ⟨e', rfl, hallows, hF, hwire⟩ |
    ⟨c, err, rfl, hF, hwire⟩ | ⟨c, b, rest, rfl, hsend, hopen, hrunning, hF, hwire⟩ |
    ⟨c, got, b, rest, rfl, hkid, hbuffer, halive, hF, hwire⟩ |
    ⟨c, got, fds, rfl, hkid, halive, hfds, hF, hwire⟩
  · refine ⟨(hw.family.step hF).1, fun d => ?_⟩
    by_cases hd : d = c
    · subst hd
      exact .make hw hstart hF (by rw [hwire, Function.update_self])
    · refine (hw.facts d).family hw.family (.inr ⟨c, _, rfl⟩) hF ?_
      rw [hwire, Function.update_of_ne hd, World.wireAfter_eq (fun he => ?_) (by simp)]
      cases he
      exact absurd rfl hd
  · refine ⟨(hw.family.step hF).1, fun d => ?_⟩
    exact (hw.facts d).family hw.family (.inl hallows) hF (by rw [hwire])
  · refine ⟨(hw.family.step hF).1, fun d => ?_⟩
    exact (hw.facts d).family hw.family (.inr ⟨c, _, rfl⟩) hF (by rw [hwire]; rfl)
  -- a byte goes into the pipe
  · refine hw.move hF hwire ?_
    have hx := hw.facts c
    have hlist : w'.hasList c = w.hasList c := by simp [World.hasList, hwire]
    refine ⟨?_, fun got hgot => ?_, ?_, ?_, ?_⟩
    · rw [hlist, hF]
      exact hx.unborn
    · simp only [hwire, Function.update_self] at hgot ⊢
      rw [← hx.flow got hgot, hsend]
      simp
    · simpa only [hwire, Function.update_self] using hx.inherited
    · rw [hlist, hF]
      simpa only [hwire, Function.update_self] using hx.fresh
    · rw [hF]
      simpa only [hwire, Function.update_self] using hx.gone
  -- a byte is read
  · refine hw.move hF hwire ?_
    have hx := hw.facts c
    have hlist : w'.hasList c = false := by simp [World.hasList, hwire]
    refine ⟨fun _ => hlist, fun got' hgot => ?_, fun l hl => ?_, fun _ => ?_, fun hdead => ?_⟩
    · simp only [hwire, Function.update_self, Kid.inheriting.injEq] at hgot ⊢
      subst hgot
      rw [← hx.flow got hkid, hbuffer]
      simp
    · simp [hwire] at hl
    · rw [hF]
      simpa only [hwire, Function.update_self] using hx.fresh (by simp [World.hasList, hkid])
    · rw [hF, halive] at hdead
      cases hdead
  -- the list has been read
  · refine hw.move hF hwire ?_
    have hx := hw.facts c
    have hlist : w'.hasList c = true := by simp [World.hasList, hwire]
    refine ⟨fun hu => ?_, fun got' hgot => ?_, fun l hl => ?_, fun hno => ?_, fun hdead => ?_⟩
    · rw [hF] at hu
      rw [hu] at halive
      cases halive
    · simp [hwire] at hgot
    · simp only [hwire, Function.update_self, Kid.inherited.injEq] at hl ⊢
      subst hl
      have hgot : got <+: message (w.wire c).fds := by
        rw [← hx.flow got hkid, List.append_assoc]
        exact List.prefix_append _ _
      obtain ⟨hbs, heq⟩ := deserializeFrom_prefix hgot hfds
      exact ⟨trivial, by rw [hbs]; rfl, heq⟩
    · rw [hlist] at hno
      cases hno
    · rw [hF, halive] at hdead
      cases hdead

/-- What is known of the pipes holds in every state of every run. -/
theorem sound_of_reachable (hr : (world capacity).Reachable w) : w.Sound :=
  hr.invariant (fun _ hw => hw ▸ World.sound_init) fun _ _ _ _ hw h => hw.step h

/-! ## What the answer means -/

/-- **The agreement**: when a call returns `Ok(())`, the list that it was made with could be
written, and its child has it. -/
theorem handshake_agreement (hr : (world capacity).Reachable w)
    (hok : (w.family.sys.comp c).main.result = some (.ok ())) :
    (serializeInto (w.wire c).fds).isSome = true ∧
      (w.wire c).kid = .inherited ((w.wire c).fds.map ListenerInfo.onWire) := by
  have hw := sound_of_reachable hr
  have hcalled := hw.family.called_of_ok hok
  cases hkid : (w.wire c).kid with
  | inheriting got =>
    have hfresh := ((hw.facts c).fresh (by simp [World.hasList, hkid])).1
    rw [hfresh] at hcalled
    cases hcalled
  | inherited l =>
    obtain ⟨-, hsome, rfl⟩ := (hw.facts c).inherited l hkid
    exact ⟨hsome, rfl⟩

/-! ## No waiting for ever -/

/-- **The writer is never stuck** when the main thread waits for it: the child has closed the
pipe, because it has its list or because it is gone. -/
theorem World.Sound.closed_of_joinSend (hw : w.Sound) {res : UpgradeFinished}
    (hm : (w.family.sys.comp c).main = .joinSend res) : (w.wire c).readerOpen = false := by
  have hx := hw.facts c
  cases hlist : w.hasList c with
  | true =>
    cases hkid : (w.wire c).kid with
    | inheriting got => simp [World.hasList, hkid] at hlist
    | inherited l => exact (hx.inherited l hkid).1
  | false =>
    refine hx.gone ?_
    by_contra halive
    have halive : (w.family.sys.comp c).child.alive = true := by simpa using halive
    have hfresh := (hx.fresh hlist).1
    -- the child lives and has not said a word, so there is nothing to join `wait_ready` for
    have hcoherent := coherent_of_reachable hw.family.sys c
    have hmain := hcoherent.main
    unfold Call.MainFacts at hmain
    rw [hm] at hmain
    obtain ⟨-, q, hready, hwatch⟩ := hmain
    have hread := hcoherent.read
    rw [hready] at hread
    have hwritten := (hw.family.facts c).silent (by rw [hfresh]; rfl)
    have hdel : delivered (w.family.sys.comp c).log = [] := (List.append_eq_nil_iff.mp hwritten).1
    rcases q with err | ⟨⟩
    · rcases hread with ⟨hlen, -⟩ | ⟨-, hend⟩
      · rw [hdel] at hlen
        cases hlen
      · have hopen := (hw.family.facts c).writerOpen hfresh halive
        rw [hend] at hopen
        cases hopen
    · rw [show delivered (w.family.sys.comp c).log = okBytes from hread] at hdel
      cases hdel

/-- The event is one by which the helper helps call `c`. -/
def Event.helps (c : ℕ) (h : Helper) : Event → Bool
  | .family e => e.helps c h
  | .send d => d = c ∧ h = .send
  | _ => false

/-- What has to happen for call `c` to go on, once it has been made: a thread of it that can
run is not held back for ever, a killed child dies, the clock goes on. -/
def duty (capacity : ℕ) (c : ℕ) : Helper → TransitionSystem.Obligation World Event
  | .clock wake => .reach (fun _ => True) fun w => wake ≤ w.family.sys.shared.now
  | h => .task (world capacity) (fun w => (w.family.sys.comp c).main ≠ .start ∧
      (w.family.sys.comp c).Pending w.family.sys.shared h) fun e => e.helps c h = true

/-- The end of `send_fds` is a step of the family. -/
theorem endSend_isSome {err : Option String} (h : (w.family.sys.comp c).send = .running) :
    (w.endSend c err).isSome = true := by
  simp [World.endSend, Family.step, Family.ofChild, system, Interleaving.system,
    Interleaving.step, Executioner.calls, Call.act, Call.stepSend, h]

/-- When call `c` waits for `send_fds`, that thread ends with its next step. -/
theorem World.Sound.send_ends (hw : w.Sound) (hhelp : w.family.helper c = .send) :
    (w.wire c).readerOpen = false := by
  obtain ⟨res, hm⟩ := Call.joinSend_of_helper hhelp
  exact hw.closed_of_joinSend hm

/-- What helps a call that has begun is allowed, apart from the steps of `send_fds`. -/
theorem allows_of_helps {h : Helper} {e : Family.Event}
    (hbegun : (w.family.sys.comp c).main ≠ .start) (hsend : h ≠ .send)
    (hhelps : e.helps c h = true) : w.allows e = true := by
  cases e with
  | thread e =>
    cases e with
    | act d a =>
      simp only [Family.Event.helps, decide_eq_true_eq] at hhelps
      obtain ⟨rfl, hdoes⟩ := hhelps
      cases a with
      | main => simpa [World.allows] using hbegun
      | send err => cases h <;> simp [Helper.does] at hdoes hsend
      | _ => rfl
    | env ms => rfl
  | exit d => rfl
  | _ => simp [Family.Event.helps] at hhelps

/-- What call `c` needs to go on is a duty, and it is pending. -/
theorem World.Sound.duty_pending (hw : w.Sound)
    (hbegun : (w.family.sys.comp c).main ≠ .start)
    (hend : (w.family.sys.comp c).main.ended = false) :
    (duty capacity c (w.family.helper c)).pending w := by
  have hpending := hw.family.helper_pending hend
  have htask : w.family.helper c ≠ .send → (∀ wake, w.family.helper c ≠ .clock wake) →
      ∃ e : Event, e.helps c (w.family.helper c) = true ∧
        ((world capacity).step w e).isSome = true := by
    intro hsend hclock
    obtain ⟨e, hhelps, hstep⟩ := Family.helps_of_pending hpending hclock
    refine ⟨.family e, hhelps, ?_⟩
    simp [world, World.step, allows_of_helps hbegun hsend hhelps, hstep]
  have hclosed := hw.send_ends (c := c)
  cases hhelp : w.family.helper c with
  | clock wake => trivial
  | send =>
    rw [hhelp] at hpending
    have hrunning : (w.family.sys.comp c).send = .running := hpending
    refine ⟨⟨hbegun, hpending⟩, .send c, by simp [Event.helps], ?_⟩
    simp only [world, World.step, World.send, hrunning, if_true, hclosed hhelp]
    split
    · exact endSend_isSome hrunning
    · exact endSend_isSome hrunning
  | main | waitChild | waitReady | death =>
    rw [hhelp] at hpending htask
    exact ⟨⟨hbegun, hpending⟩, htask (by simp) (by simp)⟩

/-- An event is a step of the family, or it leaves it alone; and who helps a call with the
event helps it with that step. -/
theorem family_step (h : w.step capacity e = some w') :
    (w'.family = w.family ∧
      ∀ c h, e.helps c h = true → h = .send ∧ (w.wire c).readerOpen = true) ∨
    ∃ e', w.family.step e' = some w'.family ∧
      ∀ c h, e.helps c h = true → e'.helps c h = true := by
  rcases step_eq_some h with ⟨c, fds, rfl, hstart, hF, hwire⟩ | ⟨e', rfl, hallows, hF, hwire⟩ |
    ⟨c, err, rfl, hF, hwire⟩ | ⟨c, b, rest, rfl, hsend, hopen, hrunning, hF, hwire⟩ |
    ⟨c, got, b, rest, rfl, hkid, hbuffer, halive, hF, hwire⟩ |
    ⟨c, got, fds, rfl, hkid, halive, hfds, hF, hwire⟩
  · exact .inr ⟨_, hF, fun c h hh => by simp [Event.helps] at hh⟩
  · exact .inr ⟨e', hF, fun c h hh => hh⟩
  · refine .inr ⟨_, hF, fun d h hh => ?_⟩
    simp only [Event.helps, decide_eq_true_eq] at hh
    obtain ⟨rfl, rfl⟩ := hh
    simp [Family.Event.helps, Helper.does]
  · refine .inl ⟨hF, fun d h hh => ?_⟩
    simp only [Event.helps, decide_eq_true_eq] at hh
    obtain ⟨rfl, rfl⟩ := hh
    exact ⟨rfl, hopen⟩
  · exact .inl ⟨hF, fun d h hh => by simp [Event.helps] at hh⟩
  · exact .inl ⟨hF, fun d h hh => by simp [Event.helps] at hh⟩

/-- What does not help does not meet a duty. -/
theorem duty_not_met {h : Helper} {e : Option Event}
    (htask : ∀ e', e = some e' → e'.helps c h = false)
    (hclock : ∀ wake, h = .clock wake → ¬ wake ≤ w'.family.sys.shared.now) :
    ¬ (duty capacity c h).met w e w' := by
  cases h with
  | clock wake => exact hclock wake rfl
  | main | waitChild | waitReady | send | death =>
    rintro ⟨e', he', hhelps⟩
    rw [htask e' he'] at hhelps
    cases hhelps

/-- **Every call returns, panics or is given up**: whatever the pipes hold, and whether the
children answer, stay silent, stop or die, a call that is made ends.  This is about children
that are the only processes with the ends passed to them. -/
theorem upgrade_returns (x : (world capacity).Execution) (c : ℕ)
    (hfair : ∀ h, x.Meets (duty capacity c h)) {n : ℕ}
    (hbegun : ((x.state n).family.sys.comp c).main ≠ .start) :
    ∃ m, n ≤ m ∧ ((x.state m).family.sys.comp c).main.ended = true := by
  refine x.leadsTo (P := fun w : World => (w.family.sys.comp c).main ≠ .start)
    (Q := fun w => (w.family.sys.comp c).main.ended = true) (fun w => w.family.helper c)
    (fun w => w.family.left c) hfair ?_ ?_ ?_ hbegun
  · intro w hr hP hQ
    exact (sound_of_reachable hr).duty_pending hP (by simpa using hQ)
  · intro w hr hP hQ
    have hpending := (sound_of_reachable hr).family.helper_pending (c := c) (by simpa using hQ)
    refine duty_not_met (by simp) fun wake hwake => ?_
    rw [hwake] at hpending
    exact hpending
  · intro w e w' hr hP hQ hs
    have hw := sound_of_reachable hr
    have hend : (w.family.sys.comp c).main.ended = false := by simpa using hQ
    rcases family_step hs with ⟨hsame, hhelps⟩ | ⟨e', hF, hhelps⟩
    -- the calls stand still, and a byte on its way helps nobody who waits
    · have hpending := hw.family.helper_pending hend
      rw [TransitionSystem.Progress, hsame]
      refine .inr ⟨hP, .inr ⟨rfl, rfl, duty_not_met (fun e' he' => ?_) fun wake hwake => ?_⟩⟩
      · cases he'
        by_contra hhelp
        obtain ⟨hsend, hopen⟩ := hhelps c (w.family.helper c) (by simpa using hhelp)
        rw [hw.send_ends hsend] at hopen
        cases hopen
      · rw [hwake] at hpending
        rw [hsame]
        exact hpending
    · refine .inr ⟨Family.begun_step hP hF, (hw.family.call_progress hend hF).imp id ?_⟩
      rintro ⟨hleft, hhelp, hnot, hclock⟩
      refine ⟨hleft, hhelp, duty_not_met (fun e'' he'' => ?_) hclock⟩
      cases he''
      by_contra hhelps'
      rw [hhelps c _ (by simpa using hhelps')] at hnot
      cases hnot

/-! ## Runs of one call -/

/-- The threads of an upgrade, as events of the handshake. -/
def threads (es : List Executioner.Event) : List Event := es.map fun e => .family (.thread e)

/-- Call 0 is made with the list, spawns its child and starts its threads. -/
def begin (fds : List ListenerInfo) : List Event :=
  .call 0 fds :: threads (List.replicate 9 (.act 0 .main))

/-- A run in which the child takes the list byte by byte from a pipe that holds three, calls
`ready`, and is found alive. -/
def accepted : List Event :=
  begin [loopbackListener] ++
    (List.replicate 26 ([.send 0, .read 0] : List Event)).flatten ++
    ([.send 0, .finish 0, .family (.ready 0), .family (.notify 0), .family (.notify 0),
      .family (.close 0)] : List Event) ++
    threads ([.act 0 .waitReady, .act 0 .waitReady, .act 0 .waitChild, .act 0 .waitChild] ++
      clearFlag 0 ++ ([.env 500, .act 0 .waitChild, .act 0 .waitChild, .act 0 .waitChild,
        .act 0 .waitChild, .act 0 .main, .act 0 .main] : List Executioner.Event))

/-- After that run the child has the list. -/
theorem handshake_agreement_accepted :
    ∃ w, (world 3).run .init accepted = some w ∧
      (w.family.sys.comp 0).main.result = some (.ok ()) ∧
      (w.wire 0).kid = .inherited ((w.wire 0).fds.map ListenerInfo.onWire) := by
  obtain ⟨w, hw, hp⟩ := TransitionSystem.exists_run (world 3) .init accepted
    (fun w => (w.family.sys.comp 0).main.result = some (.ok ())) (by decide +kernel)
  have hok := of_decide_eq_true hp
  exact ⟨w, hw, hok,
    (handshake_agreement (TransitionSystem.reachable_of_run (.init rfl) hw) hok).2⟩

/-- One round of `wait_child` that finds the child alive and the flag set. -/
def round : List Executioner.Event :=
  [.act 0 .waitChild, .env 500, .act 0 .waitChild, .act 0 .waitChild, .act 0 .waitChild]

/-- A run in which the child does nothing at all: the writer is stuck after three bytes, and
the child is killed in the end. -/
def silent : List Event :=
  begin [loopbackListener] ++ ([.send 0, .send 0, .send 0] : List Event) ++
    threads (([.act 0 .waitChild] : List Executioner.Event) ++ (List.replicate 10 round).flatten ++
      ([.act 0 .waitChild, .act 0 .waitChild] : List Executioner.Event)) ++
    ([.family (.exit 0)] : List Event) ++
    threads [.act 0 .waitChild, .act 0 .waitReady, .act 0 .main, .act 0 .main, .act 0 .main] ++
    ([.send 0] : List Event) ++ threads [.act 0 .main]

/-- The state after `ms` more milliseconds. -/
def World.later (w : World) (ms : ℕ) : World :=
  ⟨⟨⟨{ w.family.sys.shared with now := w.family.sys.shared.now + ms }, w.family.sys.comp⟩,
    w.family.prog⟩, w.wire⟩

/-- Time can pass for ever. -/
theorem later_next (w : World) (n : ℕ) :
    (world capacity).Next (w.later (n * 1000)) (some (.family (.thread (.env 1000))))
      (w.later ((n + 1) * 1000)) := by
  have hnow : w.family.sys.shared.now + n * 1000 + 1000 =
      w.family.sys.shared.now + (n + 1) * 1000 := by
    omega
  show some (World.mk ⟨⟨{ w.family.sys.shared with
    now := w.family.sys.shared.now + n * 1000 + 1000 }, w.family.sys.comp⟩, w.family.prog⟩
      w.wire) = _
  rw [hnow]
  rfl

/-- A silent child does not keep its call from ending. -/
theorem upgrade_returns_silent :
    ∃ x : (world 3).Execution, ((x.state 1).family.sys.comp 0).main ≠ .start ∧
      ∃ m, 1 ≤ m ∧ ((x.state m).family.sys.comp 0).main.ended = true := by
  obtain ⟨w, hw, hp⟩ := TransitionSystem.exists_run (world 3) .init silent
    (fun w => (w.family.sys.comp 0).settled = true) (by decide +kernel)
  have hsettled := of_decide_eq_true hp
  obtain ⟨x, halong, hafter⟩ := TransitionSystem.exists_execution (M := world 3)
    (fun n => w.later (n * 1000)) (fun _ => some (.family (.thread (.env 1000)))) rfl hw
    (show w.later (0 * 1000) = w from rfl) (later_next w)
  have hbegun : ((x.state 1).family.sys.comp 0).main ≠ .start := by
    have hfirst := halong 1 (by decide)
    obtain ⟨w₁, hw₁, hp₁⟩ := TransitionSystem.exists_run (world 3) .init (silent.take 1)
      (fun w => (w.family.sys.comp 0).main ≠ .start) (by decide +kernel)
    rw [hw₁, Option.some.injEq] at hfirst
    rw [← hfirst]
    exact of_decide_eq_true hp₁
  -- nothing is left to do in the end, and the clock goes on
  have hfair : ∀ h, x.Meets (duty 3 0 h) := by
    intro h
    refine x.meets_of_late silent.length fun n => ?_
    cases h with
    | clock wake =>
      refine ⟨max n wake, le_max_left n wake, .inr ?_⟩
      show wake ≤ (x.state (silent.length + (max n wake + 1))).family.sys.shared.now
      rw [(hafter (max n wake + 1)).1]
      have hle := le_max_right n wake
      simp only [World.later]
      omega
    | main | waitChild | waitReady | send | death =>
      refine ⟨n, le_refl n, .inl fun hpending => ?_⟩
      rw [(hafter n).1] at hpending
      exact Call.not_pending_of_settled hsettled (by simp) hpending.1.2
  exact ⟨x, hbegun, upgrade_returns x 0 hfair hbegun⟩

end Handshake
