/-
# Chains of datagram pairs

`unix_datagram_pair` takes the end that the parent left under a name, makes a new pair, and
leaves one end of it for the child under the same name.  In the ledger of the registry
this is an exchange, so calls for a name are served in order (`Ledger.Exchanged`).

`Saga` is a process (`Host`) with the calls it has made: `calls` are all of them, `begun`
those made before each call of `upgrade`, and `cause` those made before the upgrade under
way.  A call is recorded with the files its two components refer to and the pair it made.

* `Saga.sound_of_reachable` : what a process has left under a name are the peers of what
  its successful calls returned, in order.
* `datagram_chain` : so the `j`-th call of a child returns the peer of what the `j`-th
  successful call of its parent returned, unless a socket cannot be turned into one of the
  runtime's after it has been registered.
-/
import Ecdysis.CloseOnExec

open FirstMatch

/-! ## Calls -/

/-- The file at the other end of a pair. -/
def Pair.peer : Pair → ℕ → Option ℕ
  | .failed _, _ => none
  | .made _ _ file file', f =>
    if f = file then some file' else if f = file' then some file else none

/-- A call: its name, the file its first component refers to (`some none` for an error in
its place), the file its second component refers to when it is not an error, and the pair
it was made with. -/
structure PairCall where
  name : String
  toParent : Option (Option ℕ)
  toChild : Option (Option ℕ)
  pair : Pair

namespace PairCall

/-- The file at the other end of the second component. -/
def peer (k : PairCall) : Option ℕ := k.toChild.bind fun f => f.bind k.pair.peer

/-- The calls for a name, in order. -/
def callsFor (name : String) (calls : List PairCall) : List PairCall :=
  calls.filter fun k => k.name = name

/-- The successful calls for a name, in order. -/
def successes (name : String) (calls : List PairCall) : List PairCall :=
  (callsFor name calls).filter fun k => k.toChild.isSome

/-- The exchanges that the calls for a name are: what they returned and what they left. -/
def exchanges (name : String) (calls : List PairCall) :
    List (Option (Option ℕ) × Option (Option ℕ)) :=
  (callsFor name calls).map fun k => (k.toParent, k.toChild.map fun _ => k.peer)

theorem callsFor_append (name : String) (calls calls' : List PairCall) :
    callsFor name (calls ++ calls') = callsFor name calls ++ callsFor name calls' :=
  List.filter_append ..

theorem exchanges_append (name : String) (calls calls' : List PairCall) :
    exchanges name (calls ++ calls') = exchanges name calls ++ exchanges name calls' := by
  rw [exchanges, callsFor_append, List.map_append]
  rfl

/-- What the exchanges enter are the peers of the successful calls. -/
theorem filterMap_exchanges (name : String) (calls : List PairCall) :
    (exchanges name calls).filterMap Prod.snd = (successes name calls).map peer := by
  rw [exchanges, successes]
  induction callsFor name calls with
  | nil => rfl
  | cons k ks ih =>
    cases hk : k.toChild with
    | none => simpa [hk] using ih
    | some f => simpa [hk] using ih

/-- Later calls do not change which successful call is the `j`-th. -/
theorem successes_of_prefix {name : String} {calls calls' : List PairCall} {j : ℕ} {k : PairCall}
    (h : calls <+: calls') (hk : (successes name calls)[j]? = some k) :
    (successes name calls')[j]? = some k := by
  obtain ⟨ks, hks⟩ : successes name calls <+: successes name calls' := (h.filter _).filter _
  rw [← hks, List.getElem?_append_left (List.getElem?_eq_some_iff.mp hk).1, hk]

end PairCall

/-- The call an event is, if it is one that returns. -/
def Host.pairCalls (h : Host) : Host.Event → List PairCall
  | .datagramPair name c =>
    match h.proc.unixDatagramPair name c with
    | some (res, p) => [⟨name, res.1.map p.fileOf, res.2.toOption.map p.fileOf, c⟩]
    | none => []
  | .tokioPair name c errToParent errToChild =>
    match h.proc.tokioUnixDatagramPair name c errToParent errToChild with
    | some (res, p) =>
      [⟨name, res.1.map fun r => r.toOption.bind p.fileOf, res.2.toOption.map p.fileOf, c⟩]
    | none => []
  | _ => []

/-! ## Processes and their calls -/

/-- A process with its calls. -/
structure Saga where
  host : Host
  calls : List PairCall
  begun : List (List PairCall)
  cause : List PairCall

namespace Saga

/-- A process at its start. -/
def init (h : Host) : Saga := ⟨h, [], [], []⟩

/-- The calls made before each call of `upgrade`. -/
def begunAfter (s : Saga) : Host.Event → List (List PairCall)
  | .snapshot => s.begun ++ [s.calls]
  | _ => s.begun

/-- The calls made before the upgrade under way. -/
def causeAfter (s : Saga) : Host.Event → List PairCall
  | .listenerPipes i _ => s.begun[i]?.getD []
  | _ => s.cause

/-- One step of the process. -/
def step (s : Saga) (e : Host.Event) : Option Saga :=
  (s.host.step e).map fun h =>
    ⟨h, s.calls ++ s.host.pairCalls e, s.begunAfter e, s.causeAfter e⟩

/-- No socket of a pair fails to be turned into one of the runtime's. -/
def converts (s : Saga) : Host.Event → Bool
  | .tokioPair name c errToParent errToChild =>
    match s.host.proc.unixDatagramPair name c with
    | some ((toParent, toChild), _) =>
      (toParent.isNone || errToParent.isNone) && (toChild.toOption.isNone || errToChild.isNone)
    | none => true
  | _ => true

/-- A call without failures meets the condition. -/
theorem converts_of_none (s : Saga) (name : String) (c : Pair) :
    s.converts (.tokioPair name c none none) = true := by
  simp only [converts, Option.isNone_none, Bool.or_true, Bool.and_self]
  split <;> rfl

end Saga

/-- Everything a process can do from `s` on. -/
def sagaFrom (s : Saga) : TransitionSystem Saga Host.Event where
  Init := fun s' => s' = s
  step := Saga.step

/-- Everything a process that starts as `h` can do. -/
def saga (h : Host) : TransitionSystem Saga Host.Event := sagaFrom (.init h)

/-- `s` is reached from `s₀` by steps in which no conversion fails. -/
def Saga.ReachedFrom (s₀ s : Saga) : Prop :=
  (sagaFrom s₀).ReachableVia (fun s e => s.converts e = true) s

theorem Saga.ReachedFrom.trans {s₀ s s' : Saga} (h : s₀.ReachedFrom s)
    (h' : s.ReachedFrom s') : s₀.ReachedFrom s' := by
  induction h' with
  | init hs => exact hs ▸ h
  | step _ hg hstep ih => exact .step ih hg hstep

/-- Calls are only added. -/
theorem Saga.ReachedFrom.calls_prefix {s s' : Saga} (h : s.ReachedFrom s') :
    s.calls <+: s'.calls := by
  induction h with
  | init hs => exact hs ▸ List.prefix_refl _
  | step _ _ hstep ih =>
    obtain ⟨h, -, rfl⟩ := Option.map_eq_some_iff.mp hstep
    exact ih.trans (List.prefix_append _ _)

/-- Without the record of its calls, a process does what it did. -/
theorem Host.reachable_of_reachedFrom {h₀ : Host} {s : Saga} (h : (Saga.init h₀).ReachedFrom s) :
    (host h₀).Reachable s.host := by
  induction h with
  | init hs => exact .init (by rw [hs]; rfl)
  | step _ _ hstep ih =>
    obtain ⟨h, hh, rfl⟩ := Option.map_eq_some_iff.mp hstep
    exact ih.step hh

/-! ## Steps that leave the registry alone -/

namespace Proc

variable {p q r : Proc} {fd : RawFd} {E S : List RawFd}

/-- The registry has the same entries, for the same files. -/
structure SameRegistry (p q : Proc) : Prop where
  inherited : q.inheritedFds = p.inheritedFds
  used : q.usedFds = p.usedFds
  file : ∀ fd ∈ p.registered, q.fileOf fd = p.fileOf fd

theorem SameRegistry.refl (p : Proc) : p.SameRegistry p := ⟨rfl, rfl, fun _ _ => rfl⟩

theorem SameRegistry.trans (h : p.SameRegistry q) (h' : q.SameRegistry r) :
    p.SameRegistry r := by
  refine ⟨h'.inherited.trans h.inherited, h'.used.trans h.used, fun fd hfd => ?_⟩
  have hreg : q.registered = p.registered := by
    rw [registered, h.inherited, h.used]
    rfl
  exact (h'.file fd (hreg ▸ hfd)).trans (h.file fd hfd)

theorem SameRegistry.evolves (h : p.SameRegistry q) : p.Evolves q :=
  .of_fileOf h.inherited h.used h.file

theorem SameRegistry.ledger (h : p.SameRegistry q) : q.ledger = p.ledger :=
  ledger_congr h.inherited h.used h.file

theorem sameRegistry_openFd (h : fd ∉ p.registered) (d : Desc) :
    p.SameRegistry (p.openFd fd d) :=
  ⟨rfl, rfl, fun _ hmem => fileOf_openFd_of_ne (ne_of_mem_of_not_mem hmem h)⟩

theorem sameRegistry_closeFdQuiet (h : fd ∉ p.registered) :
    p.SameRegistry (p.closeFdQuiet fd) :=
  ⟨rfl, rfl, fun _ hmem => fileOf_closeFdQuiet_of_ne (ne_of_mem_of_not_mem hmem h)⟩

/-- Setting up a pipe touches no number that was open. -/
theorem table_pipeWith {c : PipeEnds} {b : Bool} {res : Except PipeError PassedPipe}
    (hfree : c.isFree p.table = true) (hpipe : p.pipeWith c b = some (res, q))
    (hopen : p.table fd ≠ none) : q.table fd = p.table fd := by
  cases c with
  | failed msg =>
    cases hpipe
    rfl
  | made reader writer readEnd writeEnd =>
    simp only [PipeEnds.isFree, Bool.decide_and, Bool.and_eq_true, decide_eq_true_eq] at hfree
    have hreader : fd ≠ reader := by
      rintro rfl
      exact hopen hfree.1
    have hwriter : fd ≠ writer := by
      rintro rfl
      exact hopen hfree.2.1
    simp only [pipeWith] at hpipe
    set own := if b then reader else writer with hown
    set kept := if b then writer else reader with hkept
    have hends : fd ≠ own ∧ fd ≠ kept := by
      cases b
      · exact ⟨hwriter, hreader⟩
      · exact ⟨hreader, hwriter⟩
    have hmade : ((p.openFd reader ⟨readEnd, true⟩).openFd writer ⟨writeEnd, true⟩).table fd
        = p.table fd := by
      simp [openFd, hreader, hwriter]
    split at hpipe
    · cases hpipe
      simpa [closeFdQuiet, hends] using hmade
    · rename_i dup q' hclone
      obtain ⟨r, hunset, heq⟩ := Option.map_eq_some_iff.mp hpipe
      cases heq
      obtain ⟨t, ht, rfl⟩ := Option.map_eq_some_iff.mp hunset
      obtain ⟨d, -, rfl⟩ := Option.map_eq_some_iff.mp ht
      obtain ⟨d', -, -, -, hdup, rfl⟩ := cloneFd_eq_ok hclone
      have hne : fd ≠ dup := by
        rintro rfl
        exact hopen (hmade ▸ hdup)
      simp [closeFdQuiet, openFd, hends, hne, hreader, hwriter]

theorem Guarded.sameRegistry_pipeWith {c : PipeEnds} {b : Bool}
    {res : Except PipeError PassedPipe} (h : p.Guarded E S) (hfree : c.isFree p.table = true)
    (hpipe : p.pipeWith c b = some (res, q)) : p.SameRegistry q := by
  obtain ⟨hinh, hused, -⟩ := h.pipeWith hfree hpipe
  refine ⟨hinh, hused, fun fd hfd => ?_⟩
  have hopen := Option.isSome_iff_ne_none.mp (h.wf.isOpen fd hfd)
  rw [fileOf, fileOf, table_pipeWith hfree hpipe hopen]

end Proc

/-! ## What a step does to the ledger -/

namespace PairCall

/-- The second component is one end of the pair, and the call has left the other. -/
def Paired (k : PairCall) : Prop :=
  k.toChild.isSome → ∃ f f', k.toChild = some (some f) ∧ k.pair.peer f = some f'

/-- A call is an exchange. -/
structure Exchanges (k : PairCall) (p q : Proc) : Prop where
  obtained : k.toParent = p.ledger.find (.unboundUnixDatagram k.name)
  entered : q.ledger
    = p.ledger.exchange (.unboundUnixDatagram k.name) (k.toChild.map fun _ => k.peer)
  paired : k.Paired

end PairCall

namespace Proc

variable {p q : Proc} {name : String} {c : Pair}

/-- **A call of `unix_datagram_pair` is an exchange.** -/
theorem exchanges_unixDatagramPair (hp : p.WF) (hfree : c.isFree p.table = true)
    {res : Option RawFd × Except ListenError RawFd}
    (h : p.unixDatagramPair name c = some (res, q)) :
    PairCall.Exchanges ⟨name, res.1.map q.fileOf, res.2.toOption.map q.fileOf, c⟩ p q := by
  obtain ⟨hfirst, hor⟩ := ledger_unixDatagramPair hp (hp.not_registered_of_isFree hfree) h
  rcases hor with ⟨e, hres, hledger⟩ | ⟨toChild, childs, file, file', rfl, hres, hfile, hledger⟩
  · refine ⟨hfirst, ?_, ?_⟩
    · simpa [hres, Except.toOption] using hledger
    · simp [PairCall.Paired, hres, Except.toOption]
  · simp only [Pair.isFree, Bool.decide_and, Bool.and_eq_true, decide_eq_true_eq] at hfree
    have hsecond := hfile hfree.2.2
    refine ⟨hfirst, ?_, ?_⟩
    · simpa [hres, Except.toOption, PairCall.peer, hsecond, Pair.peer] using hledger
    · intro _
      exact ⟨file, file', by simp [hres, Except.toOption, hsecond], by simp [Pair.peer]⟩

/-- When no conversion fails, the method of `TokioEcdysis` does what that of `Ecdysis`
does. -/
theorem tokioUnixDatagramPair_none
    {res : Option (Except TokioError RawFd) × Except TokioError RawFd}
    (h : p.tokioUnixDatagramPair name c none none = some (res, q)) :
    ∃ res', p.unixDatagramPair name c = some (res', q) ∧ res.1 = res'.1.map .ok ∧
      res.2.toOption = res'.2.toOption := by
  obtain ⟨⟨⟨r, t⟩, q₁⟩, hinner, heq⟩ := Option.map_eq_some_iff.mp h
  cases heq
  refine ⟨(r, t), ?_, ?_, ?_⟩
  · cases r <;> cases t <;> exact hinner
  · cases r <;> rfl
  · cases t <;> rfl

theorem exchanges_tokioUnixDatagramPair (hp : p.WF) (hfree : c.isFree p.table = true)
    {res : Option (Except TokioError RawFd) × Except TokioError RawFd}
    (h : p.tokioUnixDatagramPair name c none none = some (res, q)) :
    PairCall.Exchanges ⟨name, res.1.map fun r => r.toOption.bind q.fileOf,
      res.2.toOption.map q.fileOf, c⟩ p q := by
  obtain ⟨res', hinner, hfirst, hsecond⟩ := tokioUnixDatagramPair_none h
  have hcall := exchanges_unixDatagramPair hp hfree hinner
  rw [hfirst, hsecond, Option.map_map]
  exact hcall

end Proc

namespace Host

variable {h h' : Host} {e : Event}

/-- What a step does to the ledger: nothing under any name; a call; or giving up what is
unclaimed. -/
inductive Effect (h h' : Host) (calls : List PairCall) : Prop
  | outside : (∀ name, Ledger.SameFor (.unboundUnixDatagram name) h.proc.ledger h'.proc.ledger) →
      h'.ready = h.ready → calls = [] → Effect h h' calls
  | call {k : PairCall} : k.Exchanges h.proc h'.proc → h'.ready = h.ready → calls = [k] →
      Effect h h' calls
  | closed : h'.proc.ledger = { h.proc.ledger with inherited := [] } → h'.ready = true →
      calls = [] → Effect h h' calls

/-- A step that leaves the registry alone. -/
theorem effect_of_sameRegistry {calls : List PairCall} (hsame : h.proc.SameRegistry h'.proc)
    (hready : h'.ready = h.ready) (hcalls : calls = []) :
    h.proc.Evolves h'.proc ∧ Effect h h' calls :=
  ⟨hsame.evolves, .outside (fun _ => hsame.ledger ▸ .refl _ _) hready hcalls⟩

end Host

/-- What is not a datagram pair is not under the name of one. -/
theorem SockInfo.beq_datagram_eq_false {k : SockInfo} (h : k.isDatagram = false)
    (name : String) : (k == .unboundUnixDatagram name) = false := by
  rw [Bool.eq_false_iff]
  intro hbeq
  rw [SockInfo.isDatagram_of_beq hbeq] at h
  cases h

/-- A listening request has nothing to do with datagram pairs. -/
theorem Request.not_datagram (r : Request) :
    r.key.isDatagram = false ∧ ∀ fd file info, r.creation = .created fd file info →
      info.isDatagram = false := by
  cases r with
  | unix path c => cases c <;> simp [key, creation, Creation.map, SockInfo.isDatagram]
  | unixSeqpacket path c adopt =>
    cases c <;> simp [key, creation, Creation.map, SockInfo.isDatagram]
  | tcp addr c => cases c <;> simp [key, creation, Creation.map, SockInfo.isDatagram]
  | udp addr c => cases c <;> simp [key, creation, Creation.map, SockInfo.isDatagram]

namespace Host

variable {h h' : Host} {e : Event}

/-- The listening methods. -/
theorem effect_listen (hs : h.Sound) {r : Request} {res : Listened} {p : Proc}
    {handed : List RawFd} (hfree : r.creation.isFree h.proc.table = true)
    (hlisten : h.proc.listen r = some (res, p)) :
    h.proc.Evolves p ∧ Effect h { h with proc := p, handed := handed } [] := by
  rw [Proc.listen_eq] at hlisten
  have hnew : ∀ fd file info, r.creation = .created fd file info → fd ∉ h.proc.registered := by
    intro fd file info hc
    rw [hc] at hfree
    exact hs.not_registered (by simpa [Creation.isFree] using hfree)
  refine ⟨hs.guarded.wf.evolves_listenWith hnew hlisten, .outside (fun name => ?_) rfl rfl⟩
  exact Proc.sameFor_of_listenWith hs.guarded.wf hnew
    (fun fd file info hc => SockInfo.beq_datagram_eq_false (r.not_datagram.2 fd file info hc) name)
    hlisten (SockInfo.beq_datagram_eq_false r.not_datagram.1 name)

/-- The two pipes, and the end of a failed attempt to set them up. -/
theorem effect_listenerPipes (hs : h.Sound) {fds : List ListenerInfo} {c : PipeEnds}
    {res : Except PipeError PassedPipe} {p : Proc} (hfree : c.isFree h.proc.table = true)
    (hpipe : h.proc.listenerPipes c = some (res, p)) :
    h.proc.Evolves (h.afterListenerPipes fds p res).proc ∧
      Effect h (h.afterListenerPipes fds p res) [] := by
  have hsame := hs.guarded.sameRegistry_pipeWith hfree hpipe
  cases res with
  | ok pipe => exact effect_of_sameRegistry hsame rfl rfl
  | error e => exact effect_of_sameRegistry hsame rfl rfl

theorem effect_readyPipes (hs : h.Sound) {fds : List ListenerInfo} {listener : PassedPipe}
    {c : PipeEnds} {res : Except PipeError PassedPipe} {p : Proc}
    (hstage : h.stage = .half fds listener) (hfree : c.isFree h.proc.table = true)
    (hpipe : h.proc.readyPipes c = some (res, p)) :
    h.proc.Evolves (h.afterReadyPipes fds listener p res).proc ∧
      Effect h (h.afterReadyPipes fds listener p res) [] := by
  have hsame := hs.guarded.sameRegistry_pipeWith hfree hpipe
  cases res with
  | ok pipe => exact effect_of_sameRegistry hsame rfl rfl
  | error e =>
    have hends : listener.passed ∉ p.registered ∧ listener.kept ∉ p.registered := by
      have hreg : p.registered = h.proc.registered := by
        rw [Proc.registered, hsame.inherited, hsame.used]
        rfl
      rw [hreg]
      exact ⟨hs.not_registered_passed (by simp [hstage, Stage.passed]),
        hs.not_registered_kept (by simp [hstage, Stage.kept])⟩
    refine effect_of_sameRegistry (hsame.trans ?_) rfl rfl
    exact (Proc.sameRegistry_closeFdQuiet hends.1).trans
      (Proc.sameRegistry_closeFdQuiet hends.2)

/-- `ready` gives up what is unclaimed; its own pipe is not the registry's. -/
theorem effect_ready (hs : h.Sound) {p : Proc}
    (hp : p = { h.proc.closeInherited with
      table := h.proc.closeInherited.table.closeAll h.notifier.toList }) :
    h.proc.Evolves p ∧ p.ledger = { h.proc.ledger with inherited := [] } := by
  have hsame : h.proc.closeInherited.SameRegistry p := by
    refine ⟨by rw [hp], by rw [hp], fun fd hfd => ?_⟩
    have hnot : fd ∉ h.notifier.toList := by
      intro hmem
      have hperm := List.perm_cons_erase (List.mem_append_left h.stage.passed hmem)
      exact (hs.guarded.closeInherited.perm hperm (.refl _)).not_registered_exposed hfd
    have htable : p.table fd = h.proc.closeInherited.table fd := by
      rw [hp]
      exact (DescriptorTable.closeAll_apply ..).trans (if_neg hnot)
    rw [Proc.fileOf, Proc.fileOf, htable]
  exact ⟨hs.guarded.wf.evolves_closeInherited.trans hsame.evolves,
    hsame.ledger.trans (Proc.ledger_closeInherited hs.guarded.wf)⟩

/-- **What each step does to the ledger**, when no conversion fails. -/
theorem effect_step (hs : h.Sound) (hconv : ∀ name c err err', e = .tokioPair name c err err' →
      h.proc.tokioUnixDatagramPair name c err err' = h.proc.tokioUnixDatagramPair name c none none)
    (hstep : h.step e = some h') :
    h.proc.Evolves h'.proc ∧ Effect h h' (h.pairCalls e) := by
  have hwf := hs.guarded.wf
  cases stepped_of_step hstep with
  | listen hfree hlisten => exact effect_listen hs hfree hlisten
  | claim hk hinh =>
    refine ⟨hwf.evolves_inherit hinh, .outside (fun name => ?_) rfl rfl⟩
    exact Proc.sameFor_of_inherit hwf hinh (SockInfo.beq_datagram_eq_false hk name)
  | datagramPair hfree hpair =>
    refine ⟨hwf.evolves_unixDatagramPair (hwf.not_registered_of_isFree hfree) hpair, ?_⟩
    refine .call (Proc.exchanges_unixDatagramPair hwf hfree hpair) rfl ?_
    simp [pairCalls, hpair]
  | @tokioPair name c err err' res p hfree hpair =>
    have hcalls : h.pairCalls (.tokioPair name c err err') =
        [⟨name, res.1.map fun r => r.toOption.bind p.fileOf, res.2.toOption.map p.fileOf, c⟩] := by
      simp [pairCalls, hpair]
    rw [hconv name c err err' rfl] at hpair
    refine ⟨(hs.guarded.tokioUnixDatagramPair hfree hpair).1, ?_⟩
    exact .call (Proc.exchanges_tokioUnixDatagramPair hwf hfree hpair) rfl hcalls
  | @openFd fd d hfree =>
    exact effect_of_sameRegistry (Proc.sameRegistry_openFd (hs.not_registered hfree) d) rfl rfl
  | @closeFd fd hfd =>
    have hreg : fd ∉ h.proc.registered := fun hmem => hfd (List.mem_append_left _ hmem)
    exact effect_of_sameRegistry (Proc.sameRegistry_closeFdQuiet hreg) rfl rfl
  | setLimit => exact effect_of_sameRegistry ⟨rfl, rfl, fun _ _ => rfl⟩ rfl rfl
  | snapshot => exact effect_of_sameRegistry (.refl _) rfl rfl
  | listenerPipes _ _ hfree hpipe => exact effect_listenerPipes hs hfree hpipe
  | readyPipes hstage hfree hpipe => exact effect_readyPipes hs hstage hfree hpipe
  | takePipes hstage =>
    refine effect_of_sameRegistry ?_ rfl rfl
    exact (Proc.sameRegistry_closeFdQuiet
      (hs.not_registered_passed (by simp [hstage, Stage.passed]))).trans
      (Proc.sameRegistry_closeFdQuiet
        (hs.not_registered_passed (by simp [hstage, Stage.passed])))
  | closeWorker hfd =>
    exact effect_of_sameRegistry
      (Proc.sameRegistry_closeFdQuiet (hs.not_registered_worker hfd)) rfl rfl
  | ready =>
    obtain ⟨hev, hledger⟩ := effect_ready hs rfl
    exact ⟨hev, .closed hledger rfl rfl⟩

/-- The exchanges so far and those of a step. -/
theorem Effect.exchanged {name : String} {inherited : List (SockInfo × Option ℕ)}
    {calls new : List PairCall} (he : Effect h h' new)
    (hx : Ledger.Exchanged inherited (.unboundUnixDatagram name) h.proc.ledger h.ready
      (PairCall.exchanges name calls)) :
    Ledger.Exchanged inherited (.unboundUnixDatagram name) h'.proc.ledger h'.ready
      (PairCall.exchanges name (calls ++ new)) := by
  rcases he with ⟨hsame, hready, rfl⟩ | ⟨hk, hready, rfl⟩ | ⟨hledger, hready, rfl⟩
  · rw [hready, List.append_nil]
    exact hx.sameFor (hsame name)
  · rename_i k
    rw [hready, PairCall.exchanges_append, hk.entered]
    by_cases hname : k.name = name
    · have hone : PairCall.exchanges name [k]
          = [(h.proc.ledger.find (.unboundUnixDatagram k.name),
              k.toChild.map fun _ => k.peer)] := by
        rw [← hk.obtained]
        simp [PairCall.exchanges, PairCall.callsFor, hname]
      rw [hone]
      exact hx.exchange (by rw [hname]; exact BEq.refl _) _
    · have hnone : PairCall.exchanges name [k] = [] := by
        simp [PairCall.exchanges, PairCall.callsFor, hname]
      have hne : (SockInfo.unboundUnixDatagram k.name == .unboundUnixDatagram name) = false := by
        simpa [BEq.beq, SockInfo.beq] using hname
      rw [hnone, List.append_nil]
      exact hx.sameFor (Ledger.sameFor_exchange hne _)
  · rw [hledger, hready, List.append_nil]
    exact hx.close

/-- The calls of a step. -/
theorem Effect.paired {new : List PairCall} (he : Effect h h' new) : ∀ k ∈ new, k.Paired := by
  rcases he with ⟨-, -, rfl⟩ | ⟨hk, -, rfl⟩ | ⟨-, -, rfl⟩
  · simp
  · simpa using hk.paired
  · simp

end Host

/-! ## What a process has left for its children -/

namespace Host

variable {h h' : Host} {e : Event}

/-- What a step does to the lists taken for children and to the list of the upgrade under
way: a call of `upgrade` takes one, an upgrade begins with one that was taken, and no other
step changes them. -/
theorem lists_step (hstep : h.step e = some h') :
    (e = .snapshot ∧ h' = { h with taken := h.taken ++ [h.proc.usedFds] }) ∨
    (∃ i c, e = .listenerPipes i c ∧ h'.taken = h.taken ∧
      (h'.stage = .idle ∨ h.taken[i]? = some h'.stage.list)) ∨
    (e ≠ .snapshot ∧ (∀ i c, e ≠ .listenerPipes i c) ∧ h'.taken = h.taken ∧
      (h'.stage = .idle ∨ h.stage ≠ .idle ∧ h'.stage.list = h.stage.list)) := by
  have hsame : h'.stage = h.stage →
      (h'.stage = .idle ∨ h.stage ≠ .idle ∧ h'.stage.list = h.stage.list) := by
    intro heq
    by_cases hidle : h.stage = .idle
    · exact .inl (heq.trans hidle)
    · exact .inr ⟨hidle, by rw [heq]⟩
  cases stepped_of_step hstep with
  | snapshot => exact .inl ⟨rfl, rfl⟩
  | @listenerPipes i c fds res p hidle hfds _ _ =>
    right; left
    cases res with
    | ok pipe => exact ⟨i, c, rfl, rfl, .inr hfds⟩
    | error err => exact ⟨i, c, rfl, rfl, .inl hidle⟩
  | @readyPipes c fds listener res p hstage _ _ =>
    right; right
    cases res with
    | ok pipe =>
      exact ⟨by simp, by simp, rfl, .inr (by simp [hstage, afterReadyPipes, Stage.list])⟩
    | error err => exact ⟨by simp, by simp, rfl, .inl rfl⟩
  | takePipes _ =>
    right; right
    exact ⟨by simp, by simp, rfl, .inl rfl⟩
  | _ =>
    right; right
    exact ⟨by simp, by simp, rfl, hsame rfl⟩

end Host

namespace Saga

variable {h₀ c : Host} {s s' t : Saga} {e : Host.Event} {n : ℕ}

/-- The list `fds` holds, under every name, the peers of what the successful calls among
`ks` returned, in order. -/
def Booked (p : Proc) (fds : List ListenerInfo) (ks : List PairCall) : Prop :=
  ∀ name, (queue Prod.fst (.unboundUnixDatagram name) (fds.map p.entry)).map Prod.snd
    = (PairCall.successes name ks).map PairCall.peer

/-- The calls for a name have been served in order, each list taken for a child is booked
with the calls before it, and so is the list of the upgrade under way. -/
structure Sound (h₀ : Host) (s : Saga) : Prop where
  host : s.host.Sound
  exchanged : ∀ name, Ledger.Exchanged h₀.proc.ledger.inherited (.unboundUnixDatagram name)
    s.host.proc.ledger s.host.ready (PairCall.exchanges name s.calls)
  paired : ∀ k ∈ s.calls, k.Paired
  length : s.begun.length = s.host.taken.length
  begun : ∀ (i : ℕ) fds ks, s.host.taken[i]? = some fds → s.begun[i]? = some ks →
    Booked s.host.proc fds ks ∧ ks <+: s.calls
  cause : s.host.stage ≠ .idle →
    Booked s.host.proc s.host.stage.list s.cause ∧ s.cause <+: s.calls

/-- Entries in use keep their files. -/
theorem Booked.evolves {p q : Proc} {fds : List ListenerInfo} {ks : List PairCall}
    (h : Booked p fds ks) (hfds : fds <+: p.usedFds) (hev : p.Evolves q) : Booked q fds ks := by
  intro name
  have hentries : fds.map q.entry = fds.map p.entry := by
    refine List.map_congr_left fun li hli => ?_
    rw [Proc.entry, Proc.entry, hev.usedFile li (hfds.subset hli)]
  rw [hentries]
  exact h name

/-- What is in use is booked with all calls. -/
theorem Sound.booked_used (hs : s.Sound h₀) : Booked s.host.proc s.host.proc.usedFds s.calls := by
  intro name
  rw [← PairCall.filterMap_exchanges]
  exact (hs.exchanged name).entered

/-- A list that was taken is booked with the calls before it. -/
theorem Sound.booked_taken (hs : s.Sound h₀) {i : ℕ} {fds : List ListenerInfo}
    (hfds : s.host.taken[i]? = some fds) :
    Booked s.host.proc fds (s.begun[i]?.getD []) ∧ s.begun[i]?.getD [] <+: s.calls := by
  have hlt : i < s.begun.length := by
    rw [hs.length]
    exact (List.getElem?_eq_some_iff.mp hfds).1
  have hks : s.begun[i]? = some s.begun[i] := List.getElem?_eq_getElem hlt
  rw [hks]
  exact hs.begun i fds _ hfds hks

/-- The list and the calls of the upgrade under way, after a step. -/
theorem Sound.cause_step (hs : s.Sound h₀) {h : Host} (hev : s.host.proc.Evolves h.proc)
    (hstep : s.host.step e = some h) (hstage : h.stage ≠ .idle) :
    Booked h.proc h.stage.list (s.causeAfter e) ∧ s.causeAfter e <+: s.calls := by
  rcases Host.lists_step hstep with ⟨rfl, rfl⟩ | ⟨i, c, rfl, -, hidle | hfds⟩ |
    ⟨-, hne, -, hidle | ⟨hbusy, hlist⟩⟩
  · exact hs.cause hstage
  · exact absurd hidle hstage
  · obtain ⟨hbooked, hpre⟩ := hs.booked_taken hfds
    exact ⟨hbooked.evolves (hs.host.taken _ (List.mem_of_getElem? hfds)) hev, hpre⟩
  · exact absurd hidle hstage
  · have hcause : s.causeAfter e = s.cause := by
      cases e <;> first | rfl | exact absurd rfl (hne _ _)
    obtain ⟨hbooked, hpre⟩ := hs.cause hbusy
    rw [hcause, hlist]
    exact ⟨hbooked.evolves hs.host.list hev, hpre⟩

/-- The lists taken and the calls before them, after a step. -/
theorem Sound.begun_step (hs : s.Sound h₀) {h : Host} (hev : s.host.proc.Evolves h.proc)
    (hstep : s.host.step e = some h) :
    (s.begunAfter e).length = h.taken.length ∧
      ∀ (i : ℕ) fds ks, h.taken[i]? = some fds → (s.begunAfter e)[i]? = some ks →
        Booked h.proc fds ks ∧ ks <+: s.calls := by
  have hold : ∀ (i : ℕ) fds ks, s.host.taken[i]? = some fds → s.begun[i]? = some ks →
      Booked h.proc fds ks ∧ ks <+: s.calls := by
    intro i fds ks hfds hks
    obtain ⟨hbooked, hpre⟩ := hs.begun i fds ks hfds hks
    exact ⟨hbooked.evolves (hs.host.taken fds (List.mem_of_getElem? hfds)) hev, hpre⟩
  have hkept : e ≠ .snapshot → s.begunAfter e = s.begun := by
    intro hne
    cases e <;> first | rfl | exact absurd rfl hne
  rcases Host.lists_step hstep with ⟨rfl, rfl⟩ | ⟨i, c, rfl, htaken, -⟩ | ⟨hne, -, htaken, -⟩
  · refine ⟨by simp [begunAfter, hs.length], fun i fds ks hfds hks => ?_⟩
    simp only [begunAfter] at hfds hks
    rcases Nat.lt_or_ge i s.begun.length with hi | hi
    · rw [List.getElem?_append_left (hs.length ▸ hi)] at hfds
      rw [List.getElem?_append_left hi] at hks
      exact hold i fds ks hfds hks
    -- the list just taken is all that is in use
    · obtain rfl : i = s.begun.length := by
        have hlt := (List.getElem?_eq_some_iff.mp hks).1
        rw [List.length_append, List.length_singleton] at hlt
        omega
      rw [List.getElem?_concat_length, Option.some.injEq] at hks
      rw [hs.length, List.getElem?_concat_length, Option.some.injEq] at hfds
      rw [← hfds, ← hks]
      exact ⟨hs.booked_used, List.prefix_refl _⟩
  · rw [hkept (by simp), htaken]
    exact ⟨hs.length, hold⟩
  · rw [hkept hne, htaken]
    exact ⟨hs.length, hold⟩

/-- When no conversion that is made fails, the call does what it does without failures. -/
theorem tokioUnixDatagramPair_of_converts {name : String} {c : Pair} {err err' : Option String}
    (h : s.converts (.tokioPair name c err err') = true) :
    s.host.proc.tokioUnixDatagramPair name c err err'
      = s.host.proc.tokioUnixDatagramPair name c none none := by
  unfold Proc.tokioUnixDatagramPair
  cases hpair : s.host.proc.unixDatagramPair name c with
  | none => rfl
  | some r =>
    obtain ⟨⟨toParent, toChild⟩, q⟩ := r
    simp only [converts, hpair, Bool.and_eq_true, Bool.or_eq_true,
      Option.isNone_iff_eq_none] at h
    obtain ⟨hparent, hchild⟩ := h
    have hfirst : q.mapFromStd toParent err = q.mapFromStd toParent none := by
      rcases hparent with rfl | rfl <;> rfl
    have hsecond : ∀ q : Proc, q.andThenFromStd toChild err' = q.andThenFromStd toChild none := by
      intro q
      cases toChild with
      | error e => rfl
      | ok fd =>
        rcases hchild with hnone | rfl
        · cases hnone
        · rfl
    simp only [Option.map_some, hfirst, hsecond]

/-- **Step lemma.** -/
theorem Sound.step (hs : s.Sound h₀) (hconv : s.converts e = true) (hstep : s.step e = some s') :
    s'.Sound h₀ := by
  obtain ⟨h, hh, rfl⟩ := Option.map_eq_some_iff.mp hstep
  have hsame : ∀ name c err err', e = .tokioPair name c err err' →
      s.host.proc.tokioUnixDatagramPair name c err err'
        = s.host.proc.tokioUnixDatagramPair name c none none := by
    rintro name c err err' rfl
    exact tokioUnixDatagramPair_of_converts hconv
  obtain ⟨hev, heffect⟩ := Host.effect_step hs.host hsame hh
  obtain ⟨hlength, hbegun⟩ := hs.begun_step hev hh
  have hext : s.calls <+: s.calls ++ s.host.pairCalls e := List.prefix_append _ _
  refine ⟨hs.host.step hh, fun name => heffect.exchanged (hs.exchanged name), ?_, hlength, ?_, ?_⟩
  · intro k hk
    rcases List.mem_append.mp hk with hk | hk
    · exact hs.paired k hk
    · exact heffect.paired k hk
  · intro i fds ks hfds hks
    obtain ⟨hbooked, hpre⟩ := hbegun i fds ks hfds hks
    exact ⟨hbooked, hpre.trans hext⟩
  · intro hstage
    obtain ⟨hbooked, hpre⟩ := hs.cause_step hev hh hstage
    exact ⟨hbooked, hpre.trans hext⟩

/-- What a process starts with is sound, if it has nothing in use. -/
theorem sound_init (h0 : h₀.Sound) (hused : h₀.proc.usedFds = []) (htaken : h₀.taken = [])
    (hready : h₀.ready = false) (hstage : h₀.stage = .idle) : (init h₀).Sound h₀ := by
  refine ⟨h0, fun name => ?_, by simp [init], by simp [init, htaken], by simp [init, htaken],
    fun hne => absurd hstage hne⟩
  have hledger : h₀.proc.ledger = ⟨h₀.proc.ledger.inherited, []⟩ := by
    simp [Proc.ledger, hused]
  show Ledger.Exchanged h₀.proc.ledger.inherited _ h₀.proc.ledger h₀.ready []
  rw [hready]
  have hinit : Ledger.Exchanged h₀.proc.ledger.inherited (SockInfo.unboundUnixDatagram name)
      ⟨h₀.proc.ledger.inherited, []⟩ false [] := Ledger.exchanged_init
  rw [← hledger] at hinit
  exact hinit

/-- **Every state of a process of a chain is sound.** -/
theorem sound_of_reachable (hg : Host.Generation n h₀) (hr : (init h₀).ReachedFrom s) :
    s.Sound h₀ := by
  refine hr.invariant ?_ fun s e s' _ hs hconv hstep => hs.step hconv hstep
  rintro s rfl
  obtain ⟨hused, htaken, hready, hstage⟩ := hg.start
  exact sound_init hg.sound hused htaken hready hstage

/-! ## The next generation -/

/-- The encoding keeps the names of datagram pairs, and only these. -/
theorem onWire_beq_datagram (k : SockInfo) (name : String) :
    (k.onWire == .unboundUnixDatagram name) = (k == .unboundUnixDatagram name) := by
  cases k <;> rfl

/-- **What a child finds under a name** are the peers of what its parent's successful calls
before the upgrade returned, in order. -/
theorem Sound.queue_child (hs : s.Sound h₀) (hc : s.host.spawnChild = some c) (name : String) :
    (queue Prod.fst (.unboundUnixDatagram name) c.proc.ledger.inherited).map Prod.snd
      = (PairCall.successes name s.cause).map PairCall.peer := by
  unfold Host.spawnChild at hc
  split at hc
  · rename_i fds listener ready hstage
    obtain ⟨p, hp, rfl⟩ := Option.map_eq_some_iff.mp hc
    obtain ⟨hbooked, -⟩ := hs.cause (by simp [hstage])
    have hlist := hs.host.list
    simp only [hstage, Stage.list] at hbooked hlist
    -- the pipe the list came by is none of the listed numbers
    have hpipe : listener.passed ∉ p.registered := by
      obtain ⟨hinh, hused, -, -⟩ := Proc.spawnChild_eq_some hp
      rw [Proc.registered, hinh, hused, List.append_nil, List.map_map]
      intro hmem
      have hpassed : listener.passed ∈ s.host.stage.passed := by simp [hstage, Stage.passed]
      refine hs.host.not_registered_passed hpassed ?_
      rw [Proc.registered, List.map_append]
      exact List.mem_append_right _ ((hlist.sublist.map ListenerInfo.fd).subset hmem)
    show (queue Prod.fst _ (p.closeFdQuiet listener.passed).ledger.inherited).map Prod.snd = _
    rw [Proc.ledger_closeFdQuiet hpipe, Proc.ledger_spawnChild hp, ← hbooked name, queue, queue,
      List.filter_map, List.filter_map, List.map_map, List.map_map]
    congr 1
    exact List.filter_congr fun li _ => onWire_beq_datagram li.sockInfo name
  · cases hc

end Saga

/-- **The calls of a process and those of its parent.**  In a child that has not called
`ready`, the `j`-th call for a name returns the peer of what the `j`-th successful call of
its parent before the upgrade returned, if there was one. -/
theorem Saga.Sound.toParent_eq {h₀ c : Host} {s t : Saga} (hs : s.Sound h₀)
    (hc : s.host.spawnChild = some c) (ht : t.Sound c) (hready : t.host.ready = false)
    {name : String} {j : ℕ} {k : PairCall}
    (hk : (PairCall.callsFor name t.calls)[j]? = some k) :
    k.toParent = (PairCall.successes name s.cause)[j]?.map PairCall.peer := by
  have hx : (PairCall.exchanges name t.calls)[j]?
      = some (k.toParent, k.toChild.map fun _ => k.peer) := by
    rw [PairCall.exchanges, List.getElem?_map, hk, Option.map_some]
  calc k.toParent
      = (queue Prod.fst (.unboundUnixDatagram name) c.proc.ledger.inherited)[j]?.map Prod.snd :=
        (ht.exchanged name).obtained hready j _ hx
    _ = ((queue Prod.fst (.unboundUnixDatagram name) c.proc.ledger.inherited).map
          Prod.snd)[j]? := (List.getElem?_map ..).symm
    _ = ((PairCall.successes name s.cause).map PairCall.peer)[j]? := by
        rw [hs.queue_child hc name]
    _ = (PairCall.successes name s.cause)[j]?.map PairCall.peer := List.getElem?_map ..

/-- A successful call is recorded with the two ends of its pair. -/
theorem Saga.Sound.peer_eq {h₀ : Host} {s : Saga} (hs : s.Sound h₀)
    (hstage : s.host.stage ≠ .idle) {name : String} {j : ℕ} {k : PairCall}
    (hk : (PairCall.successes name s.cause)[j]? = some k) :
    ∃ f f', k.toChild = some (some f) ∧ k.pair.peer f = some f' ∧ k.peer = some f' := by
  have hmem := List.mem_of_getElem? hk
  obtain ⟨hcalls, hsome⟩ := List.mem_filter.mp hmem
  have hpaired := hs.paired k ((hs.cause hstage).2.subset (List.mem_of_mem_filter hcalls))
  obtain ⟨f, f', hf, hf'⟩ := hpaired hsome
  exact ⟨f, f', hf, hf', by simp [PairCall.peer, hf, hf']⟩

/-- A process that starts a child has set up its pipes. -/
theorem Host.stage_of_spawnChild {h c : Host} (hc : h.spawnChild = some c) :
    h.stage ≠ .idle := by
  intro hidle
  simp [Host.spawnChild, hidle] at hc

/-- **The chain of datagram pairs.**  In any process of a chain, of which conversions do not
fail: the first process gets nothing from a parent; and for every child that it starts, in
an upgrade that fails or succeeds:

* none of what it has handed out is open in the child, and what the child finds under a name
  are the peers of what its own successful calls before the upgrade returned, in order;
* the `j`-th call of the child for a name returns `Some` exactly when there are more than
  `j` of these (counting from 0), and then the peer of what the `j`-th of them returned;
* the `j`-th calls of any two of its children return the same end, if both return one. -/
theorem datagram_chain {n : ℕ} {h₀ : Host} {s : Saga} (hg : Host.Generation n h₀)
    (hr : (Saga.init h₀).ReachedFrom s) :
    (n = 0 → s.host.ready = false → ∀ k ∈ s.calls, k.toParent = none) ∧
    ∀ c, s.host.spawnChild = some c →
      ((∀ fd ∈ s.host.handed, c.proc.table fd = none) ∧
        ∀ name, (queue Prod.fst (.unboundUnixDatagram name) c.proc.ledger.inherited).map Prod.snd
          = (PairCall.successes name s.cause).map PairCall.peer) ∧
      ∀ t, (Saga.init c).ReachedFrom t → t.host.ready = false →
        ∀ (name : String) (j : ℕ) k, (PairCall.callsFor name t.calls)[j]? = some k →
          (k.toParent.isSome ↔ j < (PairCall.successes name s.cause).length) ∧
          (∀ k', (PairCall.successes name s.cause)[j]? = some k' →
            ∃ f f', k'.toChild = some (some f) ∧ k'.pair.peer f = some f' ∧
              k.toParent = some (some f')) ∧
          ∀ s' c' t' k', s.ReachedFrom s' → s'.host.spawnChild = some c' →
            (Saga.init c').ReachedFrom t' → t'.host.ready = false →
            (PairCall.callsFor name t'.calls)[j]? = some k' →
            k.toParent.isSome → k'.toParent.isSome → k'.toParent = k.toParent := by
  have hs := Saga.sound_of_reachable hg hr
  refine ⟨fun hn hready k hk => ?_, fun c hc => ⟨⟨fun fd hfd => hs.host.handed_child hc hfd,
    hs.queue_child hc⟩, fun t ht hready name j k hk => ?_⟩⟩
  · -- the first process has inherited nothing
    subst hn
    have hmem : k ∈ PairCall.callsFor k.name s.calls := by
      simp [PairCall.callsFor, hk]
    obtain ⟨j, hj⟩ := List.mem_iff_getElem?.mp hmem
    have hx : (PairCall.exchanges k.name s.calls)[j]?
        = some (k.toParent, k.toChild.map fun _ => k.peer) := by
      rw [PairCall.exchanges, List.getElem?_map, hj, Option.map_some]
    have hfirst := (hs.exchanged k.name).obtained hready j _ hx
    cases hg with
    | first hinh hused => simpa [Host.init, Proc.ledger, hinh] using hfirst
  · have hgc : Host.Generation (n + 1) c :=
      .next hg (Host.reachable_of_reachedFrom hr) hc
    have hto := hs.toParent_eq hc (Saga.sound_of_reachable hgc ht) hready hk
    refine ⟨?_, fun k' hk' => ?_, ?_⟩
    · rw [hto, Option.isSome_map]
      simp
    · obtain ⟨f, f', hf, hf', hpeer⟩ := hs.peer_eq (Host.stage_of_spawnChild hc) hk'
      exact ⟨f, f', hf, hf', by rw [hto, hk', Option.map_some, hpeer]⟩
    · intro s' c' t' k' hlater hc' ht' hready' hk' hsome hsome'
      have hr' := hr.trans hlater
      have hs' := Saga.sound_of_reachable hg hr'
      have hgc' : Host.Generation (n + 1) c' :=
        .next hg (Host.reachable_of_reachedFrom hr') hc'
      have hto' := hs'.toParent_eq hc' (Saga.sound_of_reachable hgc' ht') hready' hk'
      -- both upgrades began with a part of the calls the parent has made by now
      have hpre := (hs.cause (Host.stage_of_spawnChild hc)).2.trans hlater.calls_prefix
      have hpre' := (hs'.cause (Host.stage_of_spawnChild hc')).2
      rw [hto, Option.isSome_map] at hsome
      rw [hto', Option.isSome_map] at hsome'
      obtain ⟨x, hx⟩ := Option.isSome_iff_exists.mp hsome
      obtain ⟨x', hx'⟩ := Option.isSome_iff_exists.mp hsome'
      have heq := (PairCall.successes_of_prefix hpre hx).symm.trans
        (PairCall.successes_of_prefix hpre' hx')
      rw [hto, hto', hx, hx', Option.some.inj heq]

/-! ## A conversion that fails -/

/-- The first process makes one call, and then starts a child. -/
def firstSaga (e : Host.Event) : Option Saga :=
  (sagaFrom (.init (.init freshProc none))).run (.init (.init freshProc none))
    [e, .ready, .snapshot, .listenerPipes 0 (.made 9 10 20 21), .readyPipes (.made 9 12 22 23)]

/-- The child makes one call for the same name. -/
def secondSaga (c : Host) : Option Saga :=
  (sagaFrom (.init c)).run (.init c) [.datagramPair "log" (.made 3 4 40 41)]

/-- The first process makes a pair, which is registered, and one end of which then cannot be
turned into a socket of the runtime: the call fails.  The child's call returns an end all the
same. -/
theorem failed_conversion_is_passed_on :
    ∃ s c t k, (saga (.init freshProc none)).Reachable s ∧ s.host.spawnChild = some c ∧
      (saga c).Reachable t ∧ t.host.ready = false ∧
      (PairCall.callsFor "log" t.calls)[0]? = some k ∧
      k.toParent.isSome = true ∧ PairCall.successes "log" s.calls = [] := by
  have hrun : ((firstSaga (.tokioPair "log" (.made 3 4 30 31) none (some "no space"))).bind
      fun s => s.host.spawnChild.bind fun c => (secondSaga c).map fun t => (s, c, t)).map
        (fun x => !x.2.2.host.ready && (PairCall.successes "log" x.1.calls).isEmpty &&
          ((PairCall.callsFor "log" x.2.2.calls)[0]?.map fun k => k.toParent.isSome)
            == some true) = some true := by
    decide +kernel
  obtain ⟨⟨s, c, t⟩, hx, hcheck⟩ := Option.map_eq_some_iff.mp hrun
  obtain ⟨s', hs, hx⟩ := Option.bind_eq_some_iff.mp hx
  obtain ⟨c', hc, hx⟩ := Option.bind_eq_some_iff.mp hx
  obtain ⟨t', ht, hx⟩ := Option.map_eq_some_iff.mp hx
  cases hx
  simp only [Bool.and_eq_true, Bool.not_eq_true', List.isEmpty_iff, beq_iff_eq] at hcheck
  obtain ⟨⟨hready, hnone⟩, hcall⟩ := hcheck
  obtain ⟨k, hk, hsome⟩ := Option.map_eq_some_iff.mp hcall
  exact ⟨s, c, t, k, TransitionSystem.reachable_of_run (.init rfl) hs, hc,
    TransitionSystem.reachable_of_run (.init rfl) ht, hready, hk, hsome, hnone⟩

/-- When the first process's call succeeds, the child's call returns the peer of the end it
returned. -/
theorem datagram_chain_second :
    ∃ s c t k k', (Saga.init (.init freshProc none)).ReachedFrom s ∧
      s.host.spawnChild = some c ∧ (Saga.init c).ReachedFrom t ∧
      (PairCall.successes "log" s.cause)[0]? = some k ∧ k.toChild = some (some 30) ∧
      (PairCall.callsFor "log" t.calls)[0]? = some k' ∧ k'.toParent = some (some 31) := by
  have hrun : ((firstSaga (.tokioPair "log" (.made 3 4 30 31) none none)).bind
      fun s => s.host.spawnChild.bind fun c => (secondSaga c).map fun t => (s, c, t)).map
        (fun x => !x.2.2.host.ready &&
          ((PairCall.successes "log" x.1.cause)[0]?.map fun k => (k.toChild, k.pair.peer 30))
            == some (some (some 30), some 31) &&
          ((PairCall.callsFor "log" x.2.2.calls)[0]?).isSome) = some true := by
    decide +kernel
  obtain ⟨⟨s, c, t⟩, hx, hcheck⟩ := Option.map_eq_some_iff.mp hrun
  obtain ⟨s', hs, hx⟩ := Option.bind_eq_some_iff.mp hx
  obtain ⟨c', hc, hx⟩ := Option.bind_eq_some_iff.mp hx
  obtain ⟨t', ht, hx⟩ := Option.map_eq_some_iff.mp hx
  cases hx
  simp only [Bool.and_eq_true, Bool.not_eq_true', beq_iff_eq] at hcheck
  obtain ⟨⟨hready, hparent⟩, hcall⟩ := hcheck
  obtain ⟨k, hk, hends⟩ := Option.map_eq_some_iff.mp hparent
  obtain ⟨k', hk'⟩ := Option.isSome_iff_exists.mp hcall
  simp only [Prod.mk.injEq] at hends
  have hfirst : (Saga.init (.init freshProc none)).ReachedFrom s :=
    TransitionSystem.reachableVia_of_run (.init rfl)
      (List.forall_mem_cons.mpr ⟨fun t => t.converts_of_none .., by simp [Saga.converts]⟩) hs
  have hsecond : (Saga.init c).ReachedFrom t :=
    TransitionSystem.reachableVia_of_run (.init rfl) (by simp [Saga.converts]) ht
  obtain ⟨f, f', hf, hf', hto⟩ := ((((datagram_chain (.first rfl rfl) hfirst).2 c hc).2 t hsecond
    hready "log" 0 k' hk').2.1) k hk
  rw [hends.1] at hf
  cases hf
  rw [hends.2] at hf'
  cases hf'
  exact ⟨s, c, t, k, k', hfirst, hc, hsecond, hk, hends.1, hk', hto⟩
