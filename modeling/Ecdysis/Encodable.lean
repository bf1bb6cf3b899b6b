/-
# Which registries can be handed over

`send_fds` cannot write a list with a path that is not valid UTF-8, and nothing keeps a
process from registering one.  The listening methods accept any path the system accepts, so
`handed_over_iff` says how far one gets: along every run of successful calls the list can be
written after each call exactly when every new socket is reported under a text.  Claiming an
inherited socket is harmless, because the key asked for has the same components as the one
that came with the message.

Once a path that is no text is registered, no later upgrade finds a child
(`Life.spawnChild_stays_none`).
-/
import Ecdysis.Lookup
import Ecdysis.TextBytes

open ByteCodec TextBytes

/-! ## Texts -/

namespace PathBuf

/-- The path is a text. -/
def textual (p : PathBuf) : Bool := IsText p.bytes

/-- A component that is a text. -/
def Component.textual : Component → Bool
  | .normal name => IsText name
  | _ => true

/-- A segment is a text if the component it stands for is one. -/
theorem isText_segment (s : List UInt8) :
    IsText s ↔ ∀ c, segment s = some c → c.textual = true := by
  unfold segment
  split
  · rename_i hskip
    refine ⟨nofun, fun _ => ?_⟩
    rcases hskip with rfl | rfl
    · exact .nil
    · exact isText_singleton (by decide)
  · split
    · rename_i hparent
      subst hparent
      simp only [Option.some.injEq, forall_eq', Component.textual, iff_true]
      exact (isText_singleton (by decide)).append (isText_singleton (by decide))
    · simp [Component.textual]

/-- **A path is a text exactly when its components are.** -/
theorem textual_iff_components (p : PathBuf) :
    p.textual = true ↔ ∀ c ∈ p.components, c.textual = true := by
  have hsegments : p.textual = true ↔
      ∀ c ∈ (p.bytes.splitOn 0x2F).filterMap segment, c.textual = true := by
    rw [textual, decide_eq_true_iff, isText_iff_splitOn (by decide : (0x2F : UInt8) < 128)]
    simp only [List.mem_filterMap, forall_exists_index, and_imp, isText_segment]
    exact ⟨fun h c s hs hc => h s hs c hc, fun h s hs c hc => h c s hs hc⟩
  -- what is put in front of the segments is no name
  have hstart : ∀ c ∈ (if p.bytes.head? = some 0x2F then [Component.rootDir]
      else if (p.bytes.splitOn 0x2F).head? = some [0x2E] then [Component.curDir]
      else []), c.textual = true := by
    intro c hc
    split at hc
    · rw [List.mem_singleton.mp hc]
      rfl
    · split at hc
      · rw [List.mem_singleton.mp hc]
        rfl
      · cases hc
  rw [hsegments, components]
  simp only [List.mem_append]
  constructor
  · rintro h c (hc | hc)
    · exact hstart c hc
    · exact h c hc
  · intro h c hc
    exact h c (.inr hc)

/-- Which paths can be written. -/
theorem write_isSome (p : PathBuf) :
    p.write.isSome = (p.textual && decide (p.bytes.length < lengthBound)) := by
  have hwrite : p.write = if IsText p.bytes then writeBlob p.bytes else none := rfl
  rw [hwrite, textual]
  by_cases htext : IsText p.bytes
  · rw [if_pos htext, writeBlob_isSome, decide_eq_true htext, Bool.true_and]
  · rw [if_neg htext, decide_eq_false htext, Bool.false_and, Option.isSome_none]

/-- Equal paths are texts together. -/
theorem textual_of_beq {p q : PathBuf} (h : (p == q) = true) : p.textual = q.textual := by
  rw [Bool.eq_iff_iff, textual_iff_components, textual_iff_components, (beq_iff p q).mp h]

end PathBuf

namespace SockInfo

/-- The paths in the description are texts. -/
def textual : SockInfo → Bool
  | .unix p | .unixSeqpacket p => p.all PathBuf.textual
  | _ => true

/-- The byte strings in the description have a length, as those of a process do. -/
def fits : SockInfo → Bool
  | .unix p | .unixSeqpacket p => p.all fun p => p.bytes.length < lengthBound
  | .unboundUnixDatagram n => n.toByteArray.data.toList.length < lengthBound
  | _ => true

/-- Equal descriptions are texts together. -/
theorem textual_of_beq {k l : SockInfo} (h : (k == l) = true) : k.textual = l.textual := by
  cases k <;> cases l <;> first | rfl | cases h | skip
  all_goals
    rename_i p q
    cases p <;> cases q <;> first | rfl | cases h | exact PathBuf.textual_of_beq h

/-- **A description can be written exactly when its paths are texts**, and its byte strings
not too long for a process to hold. -/
theorem write_isSome (k : SockInfo) : k.write.isSome = (k.textual && k.fits) := by
  have hpath : ∀ p : Option PathBuf, (writeOption PathBuf.write p).isSome
      = (p.all PathBuf.textual && p.all fun p => decide (p.bytes.length < lengthBound)) := by
    intro p
    cases p with
    | none => rfl
    | some p =>
      rw [writeOption, Option.isSome_map, PathBuf.write_isSome]
      rfl
  cases k with
  | unix p | unixSeqpacket p =>
    rw [write, Option.isSome_map]
    exact hpath p
  | tcp a | udp a => rfl
  | unboundUnixDatagram n =>
    rw [write, Option.isSome_map, writeString, writeBlob_isSome]
    rfl

/-- What the child reads can be written again. -/
theorem write_onWire_isSome (k : SockInfo) : k.onWire.write.isSome = k.write.isSome := by
  cases k <;> rfl

end SockInfo

/-! ## What a process can write -/

/-- The entry can be written. -/
def ListenerInfo.writable (li : ListenerInfo) : Bool := li.sockInfo.write.isSome

namespace Proc

/-- `send_fds` can write the list of the entries in use. -/
def canSend (p : Proc) : Bool := (serializeInto p.getFdsForChild).isSome

variable {p q c : Proc}

/-- A process has no more registered numbers than there are numbers. -/
theorem WF.length_usedFds (hp : p.WF) : p.usedFds.length < lengthBound := by
  have hnodup : (p.usedFds.map ListenerInfo.fd).Nodup := by
    refine hp.nodup.sublist ?_
    rw [registered, List.map_append]
    exact List.sublist_append_right _ _
  have hinj : Function.Injective fun fd : RawFd => fd.toBitVec.toFin := fun _ _ h =>
    Int32.toBitVec_inj.mp (BitVec.eq_of_toFin_eq h)
  have hcard := (hnodup.map hinj).length_le_card
  rw [List.length_map, List.length_map, Fintype.card_fin] at hcard
  exact hcard.trans_lt (by decide)

/-- **The list of a well-formed registry can be written if each of its entries can.** -/
theorem WF.canSend_iff (hp : p.WF) :
    p.canSend = true ↔ ∀ li ∈ p.usedFds, li.writable = true := by
  rw [canSend, serializeInto, getFdsForChild, writeSeq_isSome_iff hp.length_usedFds]
  simp only [ListenerInfo.write, Option.isSome_map, ListenerInfo.writable]

/-- A child can write what it has inherited. -/
theorem writable_of_spawnChild {fds : List ListenerInfo} (h : p.spawnChild fds = some c) :
    ∀ li ∈ c.inheritedFds, li.writable = true := by
  rw [(spawnChild_eq_some h).1]
  obtain ⟨t, -, h⟩ := Option.bind_eq_some_iff.mp h
  obtain ⟨bs, hbs, -⟩ := Option.bind_eq_some_iff.mp h
  have hsome : (serializeInto fds).isSome = true := by rw [hbs, Option.isSome_some]
  have hlen : fds.length < lengthBound := by
    by_contra hlong
    rw [serializeInto, writeSeq, if_neg hlong] at hsome
    cases hsome
  rw [serializeInto, writeSeq_isSome_iff hlen] at hsome
  intro li hli
  obtain ⟨li', hli', rfl⟩ := List.mem_map.mp hli
  rw [ListenerInfo.writable, ListenerInfo.onWire, SockInfo.write_onWire_isSome]
  simpa [ListenerInfo.write] using hsome li' hli'

end Proc

/-! ## Runs of successful calls -/

/-- The description of a new socket is a text. -/
def Creation.textual : Creation SockInfo → Bool
  | .failed _ => true
  | .created _ _ info => info.textual

/-- The description of a new socket is one a process can hold. -/
def Creation.fits : Creation SockInfo → Bool
  | .failed _ => true
  | .created _ _ info => info.fits

namespace Life

/-- The call of an event succeeds. -/
def succeeds (s : Life) : Event → Bool
  | .listen r => (s.proc.listen r).any fun x => x.1.isOk
  | .datagramPair name c => (s.proc.unixDatagramPair name c).any fun x => x.1.2.isOk
  | _ => true

/-- The arguments of an event are ones a process can hold. -/
def Event.fits : Event → Bool
  | .listen r => r.key.fits && r.creation.fits
  | .datagramPair name _ => (SockInfo.unboundUnixDatagram name).fits
  | _ => true

/-- **What keeps the list writable**: the call claims an inherited socket, or the new socket
is reported under a text. -/
def textual (s : Life) : Event → Bool
  | .listen r => s.proc.claims r.key || r.creation.textual
  | _ => true

end Life

/-- The life of a generation in which all calls succeed. -/
def calls (p : Proc) : TransitionSystem Life Life.Event where
  Init := (life p).Init
  step := fun s e => if s.succeeds e && e.fits then s.step e else none

namespace Life

variable {p₀ : Proc} {s s' : Life} {e : Event}

/-- All entries of the registry can be written. -/
structure Writable (s : Life) : Prop where
  sound : s.Sound
  inherited : ∀ li ∈ s.proc.inheritedFds, li.writable = true
  used : ∀ li ∈ s.proc.usedFds, li.writable = true

/-- What a step of successful calls registers can be written exactly when it is a text. -/
theorem Writable.used_step (hs : s.Writable) (h : (calls p₀).step s e = some s') :
    (∀ li ∈ s'.proc.usedFds, li.writable = true) ↔ s.textual e = true := by
  simp only [calls, Option.ite_none_right_eq_some, Bool.and_eq_true] at h
  obtain ⟨⟨hok, hfits⟩, h⟩ := h
  -- one more entry decides
  have hadded : ∀ {p : Proc} {li : ListenerInfo}, p.usedFds = s.proc.usedFds ++ [li] →
      ((∀ l ∈ p.usedFds, l.writable = true) ↔ li.writable = true) := by
    intro p li hused
    rw [hused, List.forall_mem_append, List.forall_mem_singleton]
    exact and_iff_right hs.used
  rcases step_eq_some h with ⟨r, res, p, rfl, havoids, hlisten, rfl⟩ |
    ⟨name, c, res, p, rfl, havoids, hpair, rfl⟩ | ⟨fd, d, rfl, hfd, rfl⟩ | ⟨fd, rfl, hfd, rfl⟩ |
    ⟨rfl, rfl⟩ | ⟨rfl, rfl⟩
  · rw [succeeds, Proc.listen_eq, hlisten, Option.any_some] at hok
    rw [Event.fits, Bool.and_eq_true] at hfits
    cases res with
    | error e => cases hok
    | ok res =>
      rcases Proc.listenWith_spec hlisten with
        ⟨hclaims, li, hli, n, file, hbeq, _, hused, _, _⟩ | ⟨_, _, e, he⟩ |
        ⟨hclaims, fd, file, info, n, hc, _, hused, _, _⟩
      -- the key asked for is a text because the inherited one is
      · rw [hadded hused, textual, ListenerInfo.writable, SockInfo.write_isSome]
        have htext : li.sockInfo.textual = true := by
          have hw := hs.inherited li hli
          rw [ListenerInfo.writable, SockInfo.write_isSome, Bool.and_eq_true] at hw
          exact hw.1
        rw [SockInfo.textual_of_beq hbeq] at htext
        simp [hclaims, htext, hfits.1]
      · cases he
      · rw [hadded hused, textual, ListenerInfo.writable, SockInfo.write_isSome]
        rw [hc] at hfits ⊢
        simp [hclaims, Creation.textual, show info.fits = true from hfits.2]
  · rw [succeeds, hpair, Option.any_some] at hok
    obtain ⟨x, res⟩ := res
    rcases Proc.usedFds_unixDatagramPair hpair with ⟨fd, n, rfl, hused⟩ | ⟨⟨e, rfl⟩, -⟩
    · rw [hadded hused, ListenerInfo.writable, SockInfo.write_isSome]
      exact iff_of_true (show (true && _) = true from hfits) rfl
    · cases hok
  all_goals exact iff_of_true hs.used rfl

/-- A step that keeps to texts keeps all entries writable. -/
theorem Writable.step (hs : s.Writable) (h : (calls p₀).step s e = some s')
    (htext : s.textual e = true) : s'.Writable := by
  have hused := (hs.used_step h).mpr htext
  simp only [calls, Option.ite_none_right_eq_some] at h
  refine ⟨hs.sound.step h.2, fun li hli => ?_, hused⟩
  exact hs.inherited li ((evolves_step hs.sound.wf h.2).inherited li hli).1

end Life

/-- Every generation starts with entries it can write. -/
theorem Generation.writable {n : ℕ} {p : Proc} (h : Generation n p) :
    (Life.init p).Writable where
  sound := ⟨h.wf, List.nil_prefix⟩
  inherited := by
    cases h with
    | first hinh _ =>
      intro li hli
      rw [Life.init, hinh] at hli
      cases hli
    | next _ _ hc => exact Proc.writable_of_spawnChild hc
  used := by
    intro li hli
    rw [Life.init, h.usedFds_eq_nil] at hli
    cases hli

/-- **Handing over.**  In every generation of every chain, along every run of successful
calls, with whatever the application does between them, `send_fds` can write the registry
after each call if and only if each call claims an inherited socket or makes one that is
reported under a text. -/
theorem handed_over_iff {n : ℕ} {p : Proc} (hgen : Generation n p) (es : List Life.Event) :
    (calls p).Along (fun _ _ s' => s'.proc.canSend = true) (.init p) es
      ↔ (calls p).Along (fun s e _ => s.textual e = true) (.init p) es := by
  refine TransitionSystem.along_iff (fun s e s' hs h => ?_) hgen.writable es
  have hwf : s'.proc.WF := by
    simp only [calls, Option.ite_none_right_eq_some] at h
    exact (hs.sound.step h.2).wf
  rw [hwf.canSend_iff, hs.used_step h]
  exact ⟨Iff.rfl, hs.step h⟩

/-! ## A registry that cannot be handed over -/

/-- **A path that is no text is registered for good**: from then on no list of the process can
be written, so no upgrade has a child to wait for. -/
theorem Life.spawnChild_stays_none {p : Proc} {s s' : Life} {es : List Life.Event}
    {li : ListenerInfo} (hs : s.Sound) (hli : li ∈ s.proc.usedFds) (htext : li.writable = false)
    (hrun : (life p).run s es = some s') : s'.proc.spawnChild s'.proc.getFdsForChild = none := by
  have hkept : s'.Sound ∧ li ∈ s'.proc.usedFds := by
    refine TransitionSystem.run_preserves (P := fun t => t.Sound ∧ li ∈ t.proc.usedFds)
      (fun e _ t t' ht h => ?_) ⟨hs, hli⟩ hrun
    exact ⟨ht.1.step h, (Life.evolves_step ht.1.wf h).used.subset ht.2⟩
  have hcannot : ¬s'.proc.canSend = true := by
    rw [hkept.1.wf.canSend_iff]
    intro hall
    have hw := hall li hkept.2
    rw [htext] at hw
    cases hw
  have hnone : serializeInto s'.proc.getFdsForChild = none := by
    simpa [Proc.canSend] using hcannot
  simp [Proc.spawnChild, hnone]

/-- The path `/a`. -/
def slashA : PathBuf := ⟨[0x2F, 0x61]⟩

/-- A run that listens at `/a` and makes a pair: the registry can be written after each
call. -/
theorem handed_over_slashA :
    (calls freshProc).Along (fun _ _ s' => s'.proc.canSend = true) (.init freshProc)
        [.listen (.unix slashA (.created 3 7 (some slashA))),
          .datagramPair "a" (.made 5 6 8 9)] ∧
      ((calls freshProc).run (.init freshProc)
        [.listen (.unix slashA (.created 3 7 (some slashA))),
          .datagramPair "a" (.made 5 6 8 9)]).isSome = true := by
  have hrun : ((calls freshProc).runVia Life.textual (.init freshProc)
      [.listen (.unix slashA (.created 3 7 (some slashA))),
        .datagramPair "a" (.made 5 6 8 9)]).isSome = true := by
    decide +kernel
  obtain ⟨s, hs⟩ := Option.isSome_iff_exists.mp hrun
  refine ⟨?_, by decide +kernel⟩
  exact (handed_over_iff (.first rfl rfl) _).mpr (TransitionSystem.along_of_runVia hs)

/-- The path of the one byte `0xFF`, which is no text. -/
def rawByte : PathBuf := ⟨[0xFF]⟩

/-- A socket at such a path can be listened on and is registered; the registry can then not
be written, and no upgrade of this process will ever have a child. -/
theorem raw_path_never_handed_over :
    ∃ s, (calls freshProc).run (.init freshProc)
        [.listen (.unix rawByte (.created 3 7 (some rawByte)))] = some s ∧
      s.proc.canSend = false ∧
      ∀ es s', (life freshProc).run s es = some s' →
        s'.proc.spawnChild s'.proc.getFdsForChild = none := by
  have hrun : ((calls freshProc).run (.init freshProc)
      [.listen (.unix rawByte (.created 3 7 (some rawByte)))]).map (fun s =>
        !s.proc.canSend && s.proc.usedFds.any (fun li => !li.writable)) = some true := by
    decide +kernel
  obtain ⟨s, hs, hcheck⟩ := TransitionSystem.exists_run _ _ _ _ hrun
  simp only [Bool.and_eq_true, Bool.not_eq_true', List.any_eq_true] at hcheck
  obtain ⟨hcannot, li, hli, htext⟩ := hcheck
  have hstep : (Life.init freshProc).step
      (.listen (.unix rawByte (.created 3 7 (some rawByte)))) = some s := by
    rw [TransitionSystem.run_singleton] at hs
    simp only [calls, Option.ite_none_right_eq_some] at hs
    exact hs.2
  have hfirst : Generation 0 freshProc := .first rfl rfl
  have hsound : s.Sound := hfirst.writable.sound.step hstep
  exact ⟨s, hs, hcannot, fun es s' h => Life.spawnChild_stays_none hsound hli htext h⟩
