/-
# Generations of a process and the identity of their sockets

A generation is a process from its start to its end; its upgrade children are the
generations after it.  `life p` is everything a generation that starts as `p` can do
to its registry: call the socket methods in any order, take the snapshot an upgrade
begins with, call `ready`, while the application and the library's own pipes open and
close other numbers.  A failed upgrade shows in it as a snapshot and numbers opened
and closed again.  `Generation n p` says that `p` is the start of the `n`-th process
of some chain, each started by the one before with its latest snapshot.

`socket_identity`: the `j`-th request for a key in a generation obtains the socket of
its parent's `j`-th entry for that key.  The registry of a generation is a ledger
(`RegistryLedger`), so this is the theorem on ledgers carried along `toOwner`; what is
left to show here is that the child's inherited entries are its parent's.
-/
import Ecdysis.RegistryLedger

open FirstMatch

/-! ## The life of one generation -/

/-- A generation: its process, whether it has called `ready`, the list it last took for
a child, the numbers its listening methods returned, and the answers they gave, in
order, with the key of the request and the file the returned number refers to. -/
structure Life where
  proc : Proc
  ready : Bool
  snapshot : List ListenerInfo
  handed : List RawFd
  log : List (SockInfo × Ledger.Answer (Option ℕ))

/-- A process at the start of its life. -/
def Life.init (p : Proc) : Life := ⟨p, false, [], [], []⟩

/-- The number a listening method returned. -/
def Listened.numbers : Listened → List RawFd
  | .ok (_, fd) => [fd]
  | .error _ => []

/-- The numbers of a new socket are not among `fds`. -/
def Creation.avoids (c : Creation SockInfo) (fds : List RawFd) : Bool :=
  match c with
  | .failed _ => true
  | .created fd _ _ => fd ∉ fds

/-- The numbers of a new pair are not among `fds`. -/
def Pair.avoids (c : Pair) (fds : List RawFd) : Bool :=
  match c with
  | .failed _ => true
  | .made toChild childs _ _ => toChild ∉ fds ∧ childs ∉ fds

theorem Creation.not_mem_of_avoids {c : Creation SockInfo} {fds : List RawFd}
    (h : c.avoids fds = true) (fd : RawFd) (file : ℕ) (info : SockInfo)
    (hc : c = .created fd file info) : fd ∉ fds := by
  rw [hc] at h
  simpa [Creation.avoids] using h

theorem Pair.not_mem_of_avoids {c : Pair} {fds : List RawFd} (h : c.avoids fds = true)
    (toChild childs : RawFd) (file file' : ℕ) (hc : c = .made toChild childs file file') :
    toChild ∉ fds ∧ childs ∉ fds := by
  rw [hc] at h
  simpa [Pair.avoids] using h

namespace Life

/-- What a generation can do. -/
inductive Event
  | listen (r : Request)
  | datagramPair (name : String) (c : Pair)
  | openFd (fd : RawFd) (d : Desc)
  | closeFd (fd : RawFd)
  | snapshot
  | ready

/-- One step.  New sockets, and the numbers the application opens and closes, are
never the registry's. -/
def step (s : Life) : Event → Option Life
  | .listen r =>
    if r.creation.avoids s.proc.registered then
      (s.proc.listen r).map fun (res, p) =>
        { s with
          proc := p
          handed := s.handed ++ res.numbers
          log := s.log ++ [(r.key, p.answer res)] }
    else none
  | .datagramPair name c =>
    if c.avoids s.proc.registered then
      (s.proc.unixDatagramPair name c).map fun (_, p) => { s with proc := p }
    else none
  | .openFd fd d =>
    if fd ∉ s.proc.registered then some { s with proc := s.proc.openFd fd d } else none
  | .closeFd fd =>
    if fd ∉ s.proc.registered then some { s with proc := s.proc.closeFdQuiet fd } else none
  | .snapshot => some { s with snapshot := s.proc.getFdsForChild }
  | .ready => some { s with proc := s.proc.closeInherited, ready := true }

end Life

/-- The life of the generation that starts as `p`. -/
def life (p : Proc) : TransitionSystem Life Life.Event where
  Init := fun s => s = Life.init p
  step := Life.step

namespace Life

variable {p₀ : Proc} {s s' : Life} {e : Event}

/-- What each event does. -/
theorem step_eq_some (h : s.step e = some s') :
    (∃ r res p, e = .listen r ∧ r.creation.avoids s.proc.registered = true ∧
      s.proc.listenWith r.key r.creation r.adopt = some (res, p) ∧
      s' = { s with
        proc := p
        handed := s.handed ++ res.numbers
        log := s.log ++ [(r.key, p.answer res)] }) ∨
    (∃ name c res p, e = .datagramPair name c ∧ c.avoids s.proc.registered = true ∧
      s.proc.unixDatagramPair name c = some (res, p) ∧ s' = { s with proc := p }) ∨
    (∃ fd d, e = .openFd fd d ∧ fd ∉ s.proc.registered ∧
      s' = { s with proc := s.proc.openFd fd d }) ∨
    (∃ fd, e = .closeFd fd ∧ fd ∉ s.proc.registered ∧
      s' = { s with proc := s.proc.closeFdQuiet fd }) ∨
    (e = .snapshot ∧ s' = { s with snapshot := s.proc.getFdsForChild }) ∨
    (e = .ready ∧ s' = { s with proc := s.proc.closeInherited, ready := true }) := by
  cases e with
  | listen r =>
    left
    simp only [step] at h
    split at h
    · rename_i havoids
      obtain ⟨⟨res, p⟩, hlisten, rfl⟩ := Option.map_eq_some_iff.mp h
      rw [Proc.listen_eq] at hlisten
      exact ⟨r, res, p, rfl, havoids, hlisten, rfl⟩
    · cases h
  | datagramPair name c =>
    right; left
    simp only [step] at h
    split at h
    · rename_i havoids
      obtain ⟨⟨res, p⟩, hpair, rfl⟩ := Option.map_eq_some_iff.mp h
      exact ⟨name, c, res, p, rfl, havoids, hpair, rfl⟩
    · cases h
  | openFd fd d =>
    right; right; left
    simp only [step] at h
    split at h
    · rename_i hfd
      cases h
      exact ⟨fd, d, rfl, hfd, rfl⟩
    · cases h
  | closeFd fd =>
    right; right; right; left
    simp only [step] at h
    split at h
    · rename_i hfd
      cases h
      exact ⟨fd, rfl, hfd, rfl⟩
    · cases h
  | snapshot =>
    cases h
    exact .inr (.inr (.inr (.inr (.inl ⟨rfl, rfl⟩))))
  | ready =>
    cases h
    exact .inr (.inr (.inr (.inr (.inr ⟨rfl, rfl⟩))))

end Life

/-- A listening method that is called. -/
theorem Life.step_listen {s : Life} {r : Request} {res : Listened} {p : Proc}
    (havoids : r.creation.avoids s.proc.registered = true)
    (h : s.proc.listenWith r.key r.creation r.adopt = some (res, p)) :
    s.step (.listen r) = some { s with
      proc := p
      handed := s.handed ++ res.numbers
      log := s.log ++ [(r.key, p.answer res)] } := by
  rw [Life.step, if_pos havoids, Proc.listen_eq, h, Option.map_some]

/-! ## Chains of generations -/

/-- `p` is the start of the `n`-th process of a chain: the first has an empty registry,
and each further one is started by the one before it, at any moment of its life, with
the snapshot it took last. -/
inductive Generation : ℕ → Proc → Prop
  | first {p : Proc} : p.inheritedFds = [] → p.usedFds = [] → Generation 0 p
  | next {n : ℕ} {p c : Proc} {s : Life} : Generation n p → (life p).Reachable s →
      s.proc.spawnChild s.snapshot = some c → Generation (n + 1) c

namespace Life

variable {n : ℕ} {p₀ c : Proc} {s s' : Life} {e : Event} {K : SockInfo}

/-- The registry is well-formed, and the snapshot is what it was when taken: an initial
part of the entries in use. -/
structure Sound (s : Life) : Prop where
  wf : s.proc.WF
  snapshotUsed : s.snapshot <+: s.proc.usedFds

/-- A step only adds to the registry, claims from it or closes what is unclaimed. -/
theorem evolves_step (hs : s.proc.WF) (h : s.step e = some s') : s.proc.Evolves s'.proc := by
  rcases step_eq_some h with ⟨r, res, p, rfl, havoids, hlisten, rfl⟩ |
    ⟨name, c, res, p, rfl, havoids, hpair, rfl⟩ | ⟨fd, d, rfl, hfd, rfl⟩ | ⟨fd, rfl, hfd, rfl⟩ |
    ⟨rfl, rfl⟩ | ⟨rfl, rfl⟩
  · exact hs.evolves_listenWith (Creation.not_mem_of_avoids havoids) hlisten
  · exact hs.evolves_unixDatagramPair (Pair.not_mem_of_avoids havoids) hpair
  · exact Proc.evolves_openFd hfd
  · exact Proc.evolves_closeFdQuiet hfd
  · exact .refl _
  · exact hs.evolves_closeInherited

/-- Every step keeps the registry well-formed and the snapshot an initial part of the
entries in use. -/
theorem Sound.step (hs : s.Sound) (h : s.step e = some s') : s'.Sound := by
  have hpre := hs.snapshotUsed.trans (evolves_step hs.wf h).used
  rcases step_eq_some h with ⟨r, res, p, rfl, havoids, hlisten, rfl⟩ |
    ⟨name, c, res, p, rfl, havoids, hpair, rfl⟩ | ⟨fd, d, rfl, hfd, rfl⟩ | ⟨fd, rfl, hfd, rfl⟩ |
    ⟨rfl, rfl⟩ | ⟨rfl, rfl⟩
  · exact ⟨hs.wf.listenWith (Creation.not_mem_of_avoids havoids) hlisten, hpre⟩
  · exact ⟨hs.wf.unixDatagramPair (Pair.not_mem_of_avoids havoids) hpair, hpre⟩
  · exact ⟨hs.wf.openFd fd d, hs.snapshotUsed⟩
  · exact ⟨hs.wf.closeFdQuiet hfd, hs.snapshotUsed⟩
  · exact ⟨hs.wf, List.prefix_refl _⟩
  · exact ⟨hs.wf.closeInherited, hs.snapshotUsed⟩

/-- The life of a generation that starts well-formed. -/
theorem sound_of_reachable {G : Life → Event → Prop} (hp : p₀.WF)
    (hr : (life p₀).ReachableVia G s) : s.Sound := by
  refine hr.invariant ?_ fun s e s' _ hs _ h => hs.step h
  rintro s rfl
  exact ⟨hp, List.nil_prefix⟩

end Life

/-! ## Starting a child -/

/-- What `pre_exec` makes of the table: the listed numbers lose their flag. -/
theorem Table.preExec_apply {t t' : Table} {fds : List ListenerInfo}
    (h : t.preExec fds = some t') (fd : RawFd) :
    t' fd = if fd ∈ fds.map ListenerInfo.fd then (t fd).map fun d => { d with cloexec := false }
      else t fd := by
  induction fds generalizing t with
  | nil =>
    cases h
    simp
  | cons li fds ih =>
    obtain ⟨t₁, hunset, hrest⟩ := Option.bind_eq_some_iff.mp h
    obtain ⟨d, hd, rfl⟩ := Option.map_eq_some_iff.mp hunset
    rw [ih hrest]
    by_cases hfd : fd = li.fd
    · subst hfd
      simp [hd]
    · simp [hfd]

/-- **What a child starts with**: the entries of the snapshot as they come over the
wire, each number referring to the file it refers to in the parent. -/
theorem Proc.spawnChild_eq_some {p c : Proc} {fds : List ListenerInfo}
    (h : p.spawnChild fds = some c) :
    c.inheritedFds = fds.map ListenerInfo.onWire ∧ c.usedFds = [] ∧ c.limit = p.limit ∧
      ∀ li ∈ fds, c.fileOf li.fd = p.fileOf li.fd := by
  obtain ⟨t, hpre, h⟩ := Option.bind_eq_some_iff.mp h
  obtain ⟨bs, hbs, h⟩ := Option.bind_eq_some_iff.mp h
  obtain ⟨inherited, hread, rfl⟩ := Option.map_eq_some_iff.mp h
  rw [deserializeFrom_serializeInto hbs, Option.some.injEq] at hread
  refine ⟨hread.symm, rfl, rfl, fun li hli => ?_⟩
  -- the number is listed, so it has lost its flag and survives `exec`
  have ht := Table.preExec_apply hpre li.fd
  rw [if_pos (List.mem_map_of_mem hli)] at ht
  show (t.exec li.fd).map Desc.file = (p.table li.fd).map Desc.file
  rw [Table.exec, ht]
  cases p.table li.fd <;> rfl

/-- The ledger a child starts with. -/
theorem Proc.ledger_spawnChild {p c : Proc} {fds : List ListenerInfo}
    (h : p.spawnChild fds = some c) :
    c.ledger.inherited = fds.map fun li => (li.sockInfo.onWire, p.fileOf li.fd) := by
  obtain ⟨hinh, -, -, hfile⟩ := Proc.spawnChild_eq_some h
  show c.inheritedFds.map c.entry = _
  rw [hinh, List.map_map]
  refine List.map_congr_left fun li hli => ?_
  show (li.sockInfo.onWire, c.fileOf li.fd) = _
  rw [hfile li hli]

/-- A child started with entries its parent has in use starts with a well-formed
registry. -/
theorem Proc.WF.spawnChild {p c : Proc} {fds : List ListenerInfo} (hp : p.WF)
    (hfds : fds <+: p.usedFds) (h : p.spawnChild fds = some c) : c.WF := by
  obtain ⟨hinh, hused, -, hfile⟩ := Proc.spawnChild_eq_some h
  have hreg : c.registered = fds.map ListenerInfo.fd := by
    rw [Proc.registered, hinh, hused, List.append_nil, List.map_map]
    rfl
  have hsub : (fds.map ListenerInfo.fd).Sublist p.registered := by
    rw [Proc.registered, List.map_append]
    exact (hfds.sublist.map _).trans (List.sublist_append_right _ _)
  refine ⟨hreg ▸ hp.nodup.sublist hsub, fun fd hfd => ?_⟩
  rw [hreg] at hfd
  obtain ⟨li, hli, rfl⟩ := List.mem_map.mp hfd
  have hopen := hp.isOpen li.fd (hsub.subset hfd)
  have heq := congrArg Option.isSome (hfile li hli)
  simpa [Proc.fileOf, hopen] using heq

/-- Every generation of a chain starts with a well-formed registry. -/
theorem Generation.wf {n : ℕ} {p : Proc} (h : Generation n p) : p.WF := by
  induction h with
  | first hinh hused => constructor <;> simp [Proc.registered, hinh, hused]
  | next _ hr hc ih =>
    have hsound := Life.sound_of_reachable ih hr
    exact hsound.wf.spawnChild hsound.snapshotUsed hc

/-! ## The identity of sockets -/

/-- Requests that do not mix up `K` with another description: what is requested, and
what the system reports of a new socket, is `K` after the encoding exactly when it is
`K` before, and a new socket is reported to be for `K` exactly when `K` was asked for. -/
def Request.faithful (K : SockInfo) (r : Request) : Bool :=
  (r.key.onWire == K) == (r.key == K) &&
    match r.creation with
    | .failed _ => true
    | .created _ _ info => (info == K) == (r.key == K) && (info.onWire == K) == (info == K)

/-- A request that is reported back as it was made and survives the encoding mixes up
nothing. -/
theorem Request.faithful_of_reported {r : Request} (K : SockInfo) (hplain : r.key.plain = true)
    (hinfo : ∀ fd file info, r.creation = .created fd file info → (info == r.key) = true) :
    r.faithful K = true := by
  have hkey : r.key.onWire = r.key := (SockInfo.onWire_eq_iff _).mpr hplain
  unfold Request.faithful
  rw [hkey]
  cases hcr : r.creation with
  | failed msg => simp
  | created fd file info =>
    have hbeq := hinfo fd file info hcr
    have hwire : info.onWire = info :=
      (SockInfo.onWire_eq_iff _).mpr (SockInfo.plain_of_beq hbeq hplain)
    have hcongr : (info == K) = (r.key == K) := BEq.congr_left hbeq
    simp [hwire, hcongr]

namespace Life

variable {n : ℕ} {p₀ c : Proc} {s s' : Life} {e : Event} {K : SockInfo}

/-- The runs in which no duplication fails, inherited seqpacket numbers are accepted,
and requests are faithful as far as `K` goes. -/
def handsOver (K : SockInfo) (s : Life) : Event → Bool
  | .listen r => r.adopt && s.proc.dupsSucceed r.key r.creation && r.faithful K
  | _ => true

/-- The generation as the owner of a ledger. -/
def toOwner (s : Life) : Ledger.Owner SockInfo (Option ℕ) := ⟨s.proc.ledger, s.ready, s.log⟩

/-- The answers to the requests for `k`, in order. -/
def answers (s : Life) (k : SockInfo) : List (Ledger.Answer (Option ℕ)) := s.toOwner.answers k

/-- What the events of the ledger have to meet for `K`. -/
def OwnerGuard (K : SockInfo) (_ : Ledger.Owner SockInfo (Option ℕ))
    (e : Ledger.Event SockInfo (Option ℕ)) : Prop :=
  Ledger.KeepsApart K e ∧ e.Keys fun k => (k.onWire == K) = (k == K)

/-- **A step of a generation is a step of its ledger or leaves it alone.** -/
theorem toOwner_step (hs : s.Sound) (hK : K.isDatagram = false)
    (hG : s.handsOver K e = true) (h : s.step e = some s') :
    s'.toOwner = s.toOwner ∨
      ∃ d, OwnerGuard K s.toOwner d ∧ s.toOwner.step d = some s'.toOwner := by
  rcases step_eq_some h with ⟨r, res, p, rfl, havoids, hlisten, rfl⟩ |
    ⟨name, c, res, p, rfl, havoids, hpair, rfl⟩ | ⟨fd, d, rfl, hfd, rfl⟩ | ⟨fd, rfl, hfd, rfl⟩ |
    ⟨rfl, rfl⟩ | ⟨rfl, rfl⟩
  · right
    simp only [handsOver, Bool.and_eq_true] at hG
    obtain ⟨⟨hadopt, hdup⟩, hfaithful⟩ := hG
    rw [hadopt] at hlisten
    obtain ⟨hledger, hanswer⟩ :=
      Proc.ledger_listenWith hs.wf (Creation.not_mem_of_avoids havoids) hdup hlisten
    simp only [Request.faithful, Bool.and_eq_true, beq_iff_eq] at hfaithful
    refine ⟨.request r.key r.creation.fresh,
      ⟨fun k' f hkf => ?_, hfaithful.1, fun k' f hkf => ?_⟩, ?_⟩
    · cases hcr : r.creation <;> simp_all [Creation.fresh]
    · cases hcr : r.creation <;> simp_all [Creation.fresh]
    · simp [toOwner, Ledger.Owner.step, ← hledger, ← hanswer]
  · right
    have hne : (SockInfo.unboundUnixDatagram name == K) = false := by
      rw [Bool.eq_false_iff]
      intro hbeq
      rw [← SockInfo.isDatagram_of_beq hbeq] at hK
      cases hK
    have hledger :=
      Proc.ledger_unixDatagramPair hs.wf (Pair.not_mem_of_avoids havoids) hpair
    rcases hledger with ⟨-, ⟨e, -, hledger⟩ | ⟨_, _, _, file', -, -, -, hledger⟩⟩
    · exact ⟨.replace (.unboundUnixDatagram name) none, ⟨hne, rfl⟩, by
        simp [toOwner, Ledger.Owner.step, hledger, Ledger.exchange]⟩
    · exact ⟨.replace (.unboundUnixDatagram name) (some (some file')), ⟨hne, rfl⟩, by
        simp [toOwner, Ledger.Owner.step, hledger, Ledger.exchange]⟩
  · left
    simp only [toOwner, Proc.ledger_openFd hfd]
  · left
    simp only [toOwner, Proc.ledger_closeFdQuiet hfd]
  · exact .inl rfl
  · right
    refine ⟨.close, ⟨trivial, trivial⟩, ?_⟩
    simp [toOwner, Ledger.Owner.step, Proc.ledger_closeInherited hs.wf]

/-- A generation is an owner of what it inherited. -/
theorem owner_of_reachable (hp : p₀.WF) (hused : p₀.usedFds = []) (hK : K.isDatagram = false)
    (hr : (life p₀).ReachableVia (fun s e => s.handsOver K e = true) s) :
    (Ledger.owner p₀.ledger.inherited).ReachableVia (OwnerGuard K) s.toOwner := by
  refine hr.map toOwner ?_ fun s e s' hs hG h => ?_
  · rintro s rfl
    simp [Ledger.owner, toOwner, init, Proc.ledger, hused]
  · exact toOwner_step (sound_of_reachable hp hs) hK hG h

/-- A child's queue of inherited entries for `K` is its parent's. -/
theorem queue_inherited_eq (hp : p₀.WF) (hused : p₀.usedFds = []) (hK : K.isDatagram = false)
    (hr : (life p₀).ReachableVia (fun s e => s.handsOver K e = true) s)
    (hc : s.proc.spawnChild s.snapshot = some c) :
    queue Prod.fst K c.ledger.inherited
      = (queue ListenerInfo.sockInfo K s.snapshot).map fun li =>
          (li.sockInfo.onWire, s.proc.fileOf li.fd) := by
  have hsound := sound_of_reachable hp hr
  have hkeys := Ledger.keys_used (P := fun k => (k.onWire == K) = (k == K))
    (fun _ _ hG => hG.2) (owner_of_reachable hp hused hK hr)
  have hwire : ∀ li ∈ s.snapshot, (li.sockInfo.onWire == K) = (li.sockInfo == K) := fun li hli =>
    hkeys (s.proc.entry li) (List.mem_map_of_mem (hsound.snapshotUsed.subset hli))
  rw [Proc.ledger_spawnChild hc, queue, queue, List.filter_map]
  congr 1
  exact List.filter_congr fun li hli => hwire li hli

/-- The entries in use for `K` are exactly what the requests for `K` obtained, in
order. -/
theorem used_eq_answers (hp : p₀.WF) (hused : p₀.usedFds = []) (hK : K.isDatagram = false)
    (hr : (life p₀).ReachableVia (fun s e => s.handsOver K e = true) s) :
    (queue ListenerInfo.sockInfo K s.proc.usedFds).map (fun li => s.proc.fileOf li.fd)
      = (s.answers K).filterMap Ledger.Answer.resource := by
  have hserved := Ledger.served ((owner_of_reachable hp hused hK hr).mono fun _ _ hG => hG.1)
  have hqueue : queue Prod.fst K s.proc.ledger.used
      = (queue ListenerInfo.sockInfo K s.proc.usedFds).map s.proc.entry := by
    show queue Prod.fst K (s.proc.usedFds.map s.proc.entry) = _
    rw [queue, queue, List.filter_map]
    rfl
  calc (queue ListenerInfo.sockInfo K s.proc.usedFds).map (fun li => s.proc.fileOf li.fd)
      = (queue Prod.fst K s.proc.ledger.used).map Prod.snd := by
        rw [hqueue, List.map_map]
        rfl
    _ = (s.answers K).filterMap Ledger.Answer.resource := hserved.used

end Life

/-- Every generation starts with no entry in use. -/
theorem Generation.usedFds_eq_nil {n : ℕ} {p : Proc} (h : Generation n p) : p.usedFds = [] := by
  cases h with
  | first _ hused => exact hused
  | next _ _ hc => exact (Proc.spawnChild_eq_some hc).2.1

/-- **The identity of sockets across generations.**  In every generation of every
chain, the entries in use for a key are, one for each, what the requests for that key
obtained; and in a child it starts, the `j`-th request for the key made before `ready`
is handed the file of the `j`-th entry for the key in the list the child was started
with, no new socket being made. -/
theorem socket_identity {n : ℕ} {p : Proc} {s : Life} {K : SockInfo}
    (hgen : Generation n p) (hK : K.isDatagram = false)
    (hs : (life p).ReachableVia (fun s e => s.handsOver K e = true) s) :
    (queue ListenerInfo.sockInfo K s.proc.usedFds).map (fun li => s.proc.fileOf li.fd)
        = (s.answers K).filterMap Ledger.Answer.resource ∧
      s.snapshot <+: s.proc.usedFds ∧
      (∀ r : Request, (s.proc.listen r).isSome) ∧
      ∀ c t, s.proc.spawnChild s.snapshot = some c →
        (life c).ReachableVia (fun t e => t.handsOver K e = true) t → t.ready = false →
        ∀ (j : ℕ) (li : ListenerInfo) (a : Ledger.Answer (Option ℕ)),
          (queue ListenerInfo.sockInfo K s.snapshot)[j]? = some li →
          (t.answers K)[j]? = some a → a = .handed (s.proc.fileOf li.fd) := by
  have hwf := hgen.wf
  have hused := hgen.usedFds_eq_nil
  have hsound := Life.sound_of_reachable hwf hs
  refine ⟨Life.used_eq_answers hwf hused hK hs, hsound.snapshotUsed, ?_, ?_⟩
  · exact fun r => hsound.wf.listen_isSome r
  · intro c t hc ht hready j li a hli ha
    -- the child is an owner that starts with its parent's queue for `K`
    have hserved := Ledger.served ((Life.owner_of_reachable
      (hsound.wf.spawnChild hsound.snapshotUsed hc)
      (Proc.spawnChild_eq_some hc).2.1 hK ht).mono fun _ _ hG => hG.1)
    have hentry : (queue Prod.fst K c.ledger.inherited)[j]?
        = some (li.sockInfo.onWire, s.proc.fileOf li.fd) := by
      rw [Life.queue_inherited_eq hwf hused hK hs hc, List.getElem?_map, hli, Option.map_some]
    exact hserved.handed hready j _ a hentry ha

/-- The address `127.0.0.1:8080`. -/
def loopback : SocketAddr := localhost 8080

/-- A first process with no descriptors, and at most 16 of them. -/
def freshProc : Proc := ⟨16, fun _ => none, [], []⟩

/-- The first process listens on the address, gets number 3, and takes its snapshot. -/
def firstLife : Option Life :=
  (life freshProc).runVia (Life.handsOver (.tcp loopback)) (.init freshProc)
    [.listen (.tcp loopback (.created 3 7 loopback)), .ready, .snapshot]

/-- Its child asks for the same address. -/
def secondLife (c : Proc) : Option Life :=
  (life c).runVia (Life.handsOver (.tcp loopback)) (.init c)
    [.listen (.tcp loopback (.failed "address in use"))]

/-- In a child whose parent listens on the address, the first request for it is handed
the parent's socket. -/
theorem socket_identity_second :
    ∃ s c t, (life freshProc).Reachable s ∧ s.proc.spawnChild s.snapshot = some c ∧
      (life c).Reachable t ∧ (t.answers (.tcp loopback))[0]? = some (.handed (some 7)) := by
  have hrun : (firstLife.bind fun s => (s.proc.spawnChild s.snapshot).bind fun c =>
      (secondLife c).map fun t => (s, c, t)).map (fun x =>
        !x.2.2.ready && (x.2.2.answers (.tcp loopback)).length == 1 &&
        (queue ListenerInfo.sockInfo (.tcp loopback) x.1.snapshot).map (·.fd) == [4] &&
        x.1.proc.fileOf 4 == some 7) = some true := by
    decide +kernel
  obtain ⟨⟨s, c, t⟩, hx, hcheck⟩ := Option.map_eq_some_iff.mp hrun
  obtain ⟨s', hs, hx⟩ := Option.bind_eq_some_iff.mp hx
  obtain ⟨c', hc, hx⟩ := Option.bind_eq_some_iff.mp hx
  obtain ⟨t', ht, hx⟩ := Option.map_eq_some_iff.mp hx
  cases hx
  simp only [Bool.and_eq_true, Bool.not_eq_true', beq_iff_eq] at hcheck
  obtain ⟨⟨⟨hready, hlen⟩, hqueue⟩, hfile⟩ := hcheck
  have hs' := TransitionSystem.reachableVia_of_runVia (.init rfl) hs
  have ht' := TransitionSystem.reachableVia_of_runVia (.init rfl) ht
  obtain ⟨li, hli, hfd⟩ := List.map_eq_singleton_iff.mp hqueue
  obtain ⟨a, ha⟩ := List.length_eq_one_iff.mp hlen
  have hid := (socket_identity (.first rfl rfl) rfl hs').2.2.2 c t hc ht' hready 0 li a
    (by rw [hli]; rfl) (by rw [ha]; rfl)
  refine ⟨s, c, t, hs'.reachable, hc, ht'.reachable, ?_⟩
  rw [ha, hid, hfd, hfile]
  rfl
