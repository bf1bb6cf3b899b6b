/-
# One signal for upgrading and for exiting

The documentation of `stop_on_signal` says that an exit signal that is the same as the
upgrade signal results in an upgrade.  The builder registers the upgrade trigger first, so
a poll looks at its stream first, and takes the signal from there when it finds it.  But each
registration has a stream of its own, and each stream gets each delivery.  So a poll that has
found nothing at the stream of the upgrade trigger stops at the stream of the exit trigger
when a delivery is left there: one that started an upgrade that failed, or one that came
after the look at the first stream.

`signalled` is the monitor, look by look, with the triggers of a builder in the runs in which
only this signal is delivered and no socket fires.  `same_signal_upgrades_iff` says which of
these runs do not turn into a stop.
-/
import Ecdysis.Looking

open Executioner

namespace Upgrader

/-! ## The builder -/

/-- A call of a method of `TokioEcdysisBuilder` that registers a trigger. -/
inductive Registration
  | stopOnSignal (kind : ℕ)
  | partialStopOnSignal (kind : ℕ)
  | upgradeOnSocket (path : PathBuf)
  | stopOnSocket (path : PathBuf)
  | partialStopOnSocket (path : PathBuf)

/-- `trigger_on_signal`. -/
def triggerOnSignal (ts : List (Trigger × ExitCondition)) (kind : ℕ) (ec : ExitCondition) :
    List (Trigger × ExitCondition) :=
  ts ++ [(.signal kind false, ec)]

/-- `trigger_on_socket`, once there is a listener. -/
def triggerOnSocket (ts : List (Trigger × ExitCondition)) (path : PathBuf)
    (ec : ExitCondition) : List (Trigger × ExitCondition) :=
  ts ++ [(.uds path [], ec)]

/-- The triggers after a registration. -/
def Registration.register (ts : List (Trigger × ExitCondition)) :
    Registration → List (Trigger × ExitCondition)
  | .stopOnSignal kind => triggerOnSignal ts kind .stop
  | .partialStopOnSignal kind => triggerOnSignal ts kind .partialStop
  | .upgradeOnSocket path => triggerOnSocket ts path .upgrade
  | .stopOnSocket path => triggerOnSocket ts path .stop
  | .partialStopOnSocket path => triggerOnSocket ts path .partialStop

/-- A delivery of a signal, as a stream sees it. -/
def Trigger.deliver (kind : ℕ) : Trigger → Trigger
  | .signal k pending => .signal k (pending || k = kind)
  | .uds path queue => .uds path queue

/-- A delivery reaches every stream that is registered for the signal. -/
def deliver (kind : ℕ) (ts : List (Trigger × ExitCondition)) :
    List (Trigger × ExitCondition) :=
  ts.map fun t => (t.1.deliver kind, t.2)

/-- The triggers of a builder: `TokioEcdysisBuilder::new` with the upgrade signal, then its
calls, with deliveries of that signal (`none`) at any time between them. -/
def build (kind : ℕ) : List (Option Registration) → List (Trigger × ExitCondition) :=
  List.foldl (fun ts c => c.elim (deliver kind ts) fun r => r.register ts)
    [(.signal kind false, .upgrade)]

/-! ## Runs with one signal -/

/-- What can happen: the signal is delivered, or anything else. -/
inductive SignalEvent
  | deliver
  | own (e : World.Event)

/-- The trigger is a socket. -/
def Trigger.isSocket : Trigger → Bool
  | .signal _ _ => false
  | .uds _ _ => true

/-- The next look completes the poll. -/
def Looking.completes (s : Looking) : Bool :=
  match s.world.point, s.world.triggers[s.next]? with
  | .polling, some (t, _) => (t.pollNext s.world.runState).isSome
  | _, _ => false

/-- The next look completes the poll with something from a socket. -/
def Looking.socketFires (s : Looking) : Bool :=
  s.completes && (s.world.triggers[s.next]?).any fun t => t.1.isSocket

/-- The stream of the upgrade trigger holds a delivery that it has not reported. -/
def upgradePending : List (Trigger × ExitCondition) → Bool
  | (.signal _ pending, _) :: _ => pending
  | _ => false

/-- The monitor between two looks; `found` says whether the look at the stream of the
upgrade trigger has found the signal in the poll under way. -/
structure Attending extends Looking where
  found : Bool

namespace Attending

/-- What the poll under way has found at the stream of the upgrade trigger, at which it
looks first, once the next look is made. -/
def finds (s : Attending) : Bool :=
  match s.next with
  | 0 => upgradePending s.world.triggers
  | _ + 1 => s.found

/-- What is noted of the poll under way after an event. -/
def notes (s : Attending) : World.Event → Bool
  | .monitor _ => s.finds
  | _ => s.found

/-- No other signal arrives, and no socket fires. -/
def quiet (s : Attending) : SignalEvent → Bool
  | .own (.arrive _ .signal) => false
  | .own (.monitor _) => !s.socketFires
  | _ => true

/-- One step. -/
def step (kind : ℕ) (s : Attending) : SignalEvent → Option Attending
  | .deliver =>
    some { s with world := { s.world with triggers := deliver kind s.world.triggers } }
  | .own e => (s.toLooking.step e).map fun l => ⟨l, s.notes e⟩

/-- A poll completes only when it has found the signal at the stream of the upgrade trigger:
it has been delivered after that stream last reported it and before the poll looked there. -/
def renewed (s : Attending) : SignalEvent → Bool
  | .own (.monitor _) => !s.completes || s.finds
  | _ => true

end Attending

/-- The start of `monitor`. -/
def Attending.init (parent : Proc) (triggers : List (Trigger × ExitCondition))
    (notifier : Option (List Notice)) : Attending :=
  ⟨⟨.init parent triggers notifier, 0⟩, false⟩

/-- **All interleavings in which every signal delivered is `kind` and no socket fires.** -/
def signalled (kind : ℕ) (parent : Proc) (triggers : List (Trigger × ExitCondition))
    (notifier : Option (List Notice)) : TransitionSystem Attending SignalEvent where
  Init := fun s => (looking parent triggers notifier).Init s.toLooking
  step := fun s e => if s.quiet e then s.step kind e else none

/-- The monitor stops, or has stopped, because of the signal, fully or partially. -/
def Point.stopsFor (kind : ℕ) : Point → Bool
  | .closeUsed ec (.signal k) | .stopAll ec (.signal k) => ec ≠ .upgrade ∧ k = kind
  | .cleanUp (.fullStop (.signal k)) | .cleanUp (.partialStop (.signal k)) => k = kind
  | .notifyStopping (.fullStop (.signal k)) | .notifyStopping (.partialStop (.signal k)) =>
    k = kind
  | .returned (.ok (mode, .signal k)) => mode ≠ .upgrade ∧ k = kind
  | _ => false

/-- Only a look completes a poll. -/
theorem Looking.completes_of_ne {s : Looking} (hpoint : s.world.point ≠ .polling) :
    s.completes = false := by
  unfold completes
  split
  · rename_i heq _
    exact absurd heq hpoint
  · rfl

/-! ## A delivery is a row of arrivals -/

/-- The triggers when a delivery has reached the first `n` of them. -/
def deliverUpTo (kind n : ℕ) (ts : List (Trigger × ExitCondition)) :
    List (Trigger × ExitCondition) :=
  deliver kind (ts.take n) ++ ts.drop n

theorem getElem?_deliverUpTo (kind : ℕ) {n : ℕ} {ts : List (Trigger × ExitCondition)}
    {t : Trigger × ExitCondition} (hn : ts[n]? = some t) :
    (deliverUpTo kind n ts)[n]? = some t := by
  have hlt := (List.getElem?_eq_some_iff.mp hn).1
  simp [deliverUpTo, deliver, hlt.le, List.getElem?_append_right, hn]

theorem deliverUpTo_succ (kind : ℕ) {n : ℕ} {ts : List (Trigger × ExitCondition)}
    {t : Trigger × ExitCondition} (hn : ts[n]? = some t) :
    deliverUpTo kind (n + 1) ts = (deliverUpTo kind n ts).set n (t.1.deliver kind, t.2) := by
  obtain ⟨hlt, heq⟩ := List.getElem?_eq_some_iff.mp hn
  have hdrop : ts.drop n = t :: ts.drop (n + 1) := by
    rw [← heq]
    exact List.drop_eq_getElem_cons hlt
  simp [deliverUpTo, deliver, List.take_add_one, hn, hdrop, hlt.le]

/-- For a stream registered for the signal, a delivery is an arrival. -/
theorem deliver_eq_receive {kind : ℕ} {t : Trigger} (ht : t.source = .signal kind) :
    t.deliver kind = t.receive .signal := by
  cases t with
  | uds path queue => cases ht
  | signal k pending =>
    cases ht
    simp [Trigger.deliver, Trigger.receive]

theorem deliver_of_ne {kind : ℕ} {t : Trigger} (ht : t.source ≠ .signal kind) :
    t.deliver kind = t := by
  cases t with
  | uds path queue => rfl
  | signal k pending =>
    have hk : k ≠ kind := fun heq => ht (congrArg _ heq)
    simp [Trigger.deliver, hk]

/-- The streams can get a delivery one after another. -/
theorem reachable_deliver {parent : Proc} {triggers : List (Trigger × ExitCondition)}
    {notifier : Option (List Notice)} {s : Looking}
    (hr : (looking parent triggers notifier).Reachable s) (kind : ℕ) :
    (looking parent triggers notifier).Reachable
      ⟨{ s.world with triggers := deliver kind s.world.triggers }, s.next⟩ := by
  have hupto : ∀ n ≤ s.world.triggers.length, (looking parent triggers notifier).Reachable
      ⟨{ s.world with triggers := deliverUpTo kind n s.world.triggers }, s.next⟩ := by
    intro n
    induction n with
    | zero => exact fun _ => hr
    | succ n ih =>
      intro hn
      have hget := List.getElem?_eq_getElem (l := s.world.triggers) (i := n) (by omega)
      generalize s.world.triggers[n] = t at hget
      have hreached := ih (by omega)
      have hcur := getElem?_deliverUpTo kind hget
      rw [deliverUpTo_succ kind hget]
      by_cases ht : t.1.source = .signal kind
      · refine hreached.step (e := .arrive n .signal) ?_
        simp only [looking, Looking.step, World.step, Option.map_some,
          List.modify_eq_set_getElem?, hcur, Option.map_eq_map, Option.getD_some,
          deliver_eq_receive ht]
      · obtain ⟨hlt, heq⟩ := List.getElem?_eq_some_iff.mp hcur
        rw [deliver_of_ne ht, ← heq, List.set_getElem_self]
        exact hreached
  have hall := hupto _ le_rfl
  rwa [deliverUpTo, List.take_length, List.drop_length, List.append_nil] at hall

/-- **The runs with one signal are runs of the process**, look by look. -/
theorem looking_of_signalled {kind : ℕ} {parent : Proc}
    {triggers : List (Trigger × ExitCondition)} {notifier : Option (List Notice)}
    {s : Attending} (hr : (signalled kind parent triggers notifier).Reachable s) :
    (looking parent triggers notifier).Reachable s.toLooking := by
  induction hr with
  | init hs => exact .init hs
  | @step s s' e _ _ h ih =>
    simp only [signalled] at h
    split at h
    · cases e with
      | deliver =>
        cases h
        exact reachable_deliver ih kind
      | own e =>
        obtain ⟨l, hl, rfl⟩ := Option.map_eq_some_iff.mp h
        exact ih.step hl
    · cases h

/-! ## The triggers of a builder -/

/-- A trigger registered after the first: a stream for a signal is there to stop, and only
the one signal has been delivered. -/
def Follows (kind : ℕ) (t : Trigger × ExitCondition) : Prop :=
  match t.1 with
  | .signal k pending => t.2 ≠ .upgrade ∧ (pending = true → k = kind)
  | .uds _ _ => True

/-- The triggers of a builder with this upgrade signal. -/
def Tuned (kind : ℕ) (ts : List (Trigger × ExitCondition)) : Prop :=
  ∃ pending rest, ts = (.signal kind pending, .upgrade) :: rest ∧ ∀ t ∈ rest, Follows kind t

section

variable {kind : ℕ} {ts : List (Trigger × ExitCondition)}

theorem follows_deliver {t : Trigger × ExitCondition} (h : Follows kind t) :
    Follows kind (t.1.deliver kind, t.2) := by
  obtain ⟨t, ec⟩ := t
  cases t with
  | uds path queue => trivial
  | signal k pending =>
    refine ⟨h.1, ?_⟩
    intro hpending
    rw [Bool.or_eq_true, decide_eq_true_eq] at hpending
    exact hpending.elim h.2 id

theorem Tuned.deliver (h : Tuned kind ts) : Tuned kind (deliver kind ts) := by
  obtain ⟨pending, rest, rfl, hrest⟩ := h
  refine ⟨_, Upgrader.deliver kind rest, rfl, ?_⟩
  intro t ht
  obtain ⟨u, hu, rfl⟩ := List.mem_map.mp ht
  exact follows_deliver (hrest u hu)

theorem Tuned.append {t : Trigger × ExitCondition} (h : Tuned kind ts) (ht : Follows kind t) :
    Tuned kind (ts ++ [t]) := by
  obtain ⟨pending, rest, rfl, hrest⟩ := h
  refine ⟨pending, rest ++ [t], rfl, ?_⟩
  intro u hu
  rcases List.mem_append.mp hu with hmem | hmem
  · exact hrest u hmem
  · rwa [List.mem_singleton.mp hmem]

theorem Tuned.register (h : Tuned kind ts) (r : Registration) : Tuned kind (r.register ts) := by
  cases r with
  | stopOnSignal k | partialStopOnSignal k => exact h.append ⟨by simp, by simp⟩
  | upgradeOnSocket path | stopOnSocket path | partialStopOnSocket path => exact h.append trivial

/-- What the builder makes. -/
theorem tuned_build (kind : ℕ) (calls : List (Option Registration)) :
    Tuned kind (build kind calls) := by
  have hfold : ∀ ts, Tuned kind ts → Tuned kind
      (calls.foldl (fun ts c => c.elim (deliver kind ts) fun r => r.register ts) ts) := by
    induction calls with
    | nil => exact fun ts h => h
    | cons c calls ih =>
      intro ts h
      rw [List.foldl_cons]
      apply ih
      cases c with
      | none => exact h.deliver
      | some r => exact h.register r
  exact hfold _ ⟨false, [], rfl, by simp⟩

/-- A connection leaves the streams for signals as they are. -/
theorem Tuned.connect (h : Tuned kind ts) (i : ℕ) (res : Except String ℕ) :
    Tuned kind (ts.modify i fun t => (t.1.receive (.connection res), t.2)) := by
  have hsame : ∀ t : Trigger × ExitCondition, Follows kind t →
      Follows kind (t.1.receive (.connection res), t.2) := by
    rintro ⟨t, ec⟩ ht
    cases t with
    | signal k pending => exact ht
    | uds path queue => trivial
  obtain ⟨pending, rest, rfl, hrest⟩ := h
  cases i with
  | zero => exact ⟨pending, rest, rfl, hrest⟩
  | succ i =>
    refine ⟨pending, rest.modify i _, rfl, ?_⟩
    intro t ht
    obtain ⟨j, hj⟩ := List.mem_iff_getElem?.mp ht
    rw [List.getElem?_modify] at hj
    obtain ⟨u, hu, rfl⟩ := Option.map_eq_some_iff.mp hj
    split
    · exact hsame u (hrest u (List.mem_of_getElem? hu))
    · exact hrest u (List.mem_of_getElem? hu)

end

/-! ## Which runs turn into a stop -/

namespace World

variable {w w' : World} {kind : ℕ}

/-- The steps of a stop are about the same signal. -/
theorem stopsFor_closeUsed (ec : ExitCondition) (reason : ExitReason) :
    Point.stopsFor kind (.closeUsed ec reason) = Point.stopsFor kind (.stopAll ec reason) := by
  cases reason <;> rfl

theorem stopsFor_afterQuit (ec : ExitCondition) (reason : ExitReason) :
    (afterQuit reason ec).stopsFor kind = Point.stopsFor kind (.stopAll ec reason) := by
  cases reason <;> cases ec <;> simp [afterQuit, Point.stopsFor]

theorem stopsFor_notifyStopping (ending : Ending) :
    Point.stopsFor kind (.notifyStopping ending) = Point.stopsFor kind (.cleanUp ending) := by
  cases ending with
  | failed msg => rfl
  | fullStop reason | partialStop reason => cases reason <;> rfl

theorem stopsFor_result (ending : Ending) :
    Point.stopsFor kind (.returned ending.result) = Point.stopsFor kind (.cleanUp ending) := by
  cases ending with
  | failed msg => rfl
  | fullStop reason | partialStop reason =>
    cases reason <;> simp [Point.stopsFor, Ending.result]

theorem stopsFor_partialMode (w : World) (reason : ExitReason) :
    Point.stopsFor kind (.returned (.ok (partialMode w, reason)))
      = Point.stopsFor kind (.cleanUp (.partialStop reason)) := by
  unfold partialMode
  cases reason <;> split <;> simp [Point.stopsFor]

/-- Away from polling, a monitor that does not stop because of the signal does not begin
to. -/
theorem stopsFor_monitor {io : Option String} (hpoint : w.point ≠ .polling)
    (hw : w.point.stopsFor kind = false) (h : w.monitor io = some w') :
    w'.point.stopsFor kind = false := by
  have hT := (turn_of_monitor h).1
  generalize w'.point = p at hT ⊢
  generalize sources w'.triggers = srcs at hT
  generalize w.deeds io ++ w.begins w' = es at hT
  cases hT with
  | upgrade hp => exact absurd hp hpoint
  | stop hp _ => exact absurd hp hpoint
  | pollFailed hp => exact absurd hp hpoint
  | closeUsed hp => rw [← stopsFor_closeUsed, ← hp, hw]
  | upgraded hp | stopped hp | partiallyStopped hp =>
    rw [hp, ← stopsFor_afterQuit] at hw
    exact hw
  | skip hp _ => rw [← hp, hw]
  | remove hp _ => rw [← hp, hw]
  | partialDone hp _ => rw [stopsFor_partialMode, ← hp, hw]
  | cleaned hp _ _ => rw [stopsFor_notifyStopping, ← hp, hw]
  | stopping hp => rw [stopsFor_result, ← stopsFor_notifyStopping, ← hp, hw]
  | @accept n reason hp _ => cases reason <;> rfl
  | _ => rfl

end World

namespace Attending

variable {s s' : Attending} {kind : ℕ}

/-- What a run without a stop keeps: a poll that goes on after the look at the first stream
has found nothing there. -/
structure Attentive (kind : ℕ) (s : Attending) : Prop where
  tuned : s.world.point.leaving = false → Tuned kind s.world.triggers
  going : s.world.point.stopsFor kind = false
  unfound : 0 < s.next → s.found = false

/-- A poll looks past the stream of the upgrade trigger when it holds nothing. -/
theorem Attentive.unfound_of_pending (hs : s.Attentive kind) {t : Trigger} {ec : ExitCondition}
    (htuned : Tuned kind s.world.triggers) (hi : s.world.triggers[s.next]? = some (t, ec))
    (hpoll : t.pollNext s.world.runState = none) : s.finds = false := by
  cases hn : s.next with
  | succ n =>
    simp only [finds, hn]
    exact hs.unfound (by omega)
  | zero =>
    obtain ⟨pending, rest, htriggers, -⟩ := htuned
    rw [hn, htriggers] at hi
    cases hi
    cases pending with
    | true => cases hpoll
    | false => simp only [finds, hn, htriggers, upgradePending]

/-- **A look at the stream of the upgrade trigger** that completes the poll has found the
signal, and leads to an upgrade. -/
theorem look_first {t t' : Trigger} {ec : ExitCondition} {item : Except String TriggerReason}
    (htuned : Tuned kind s.world.triggers) (hn : s.next = 0)
    (hi : s.world.triggers[s.next]? = some (t, ec))
    (hpoll : t.pollNext s.world.runState = some (item, t')) :
    s.finds = true ∧ (reaction item ec).stopsFor kind = false ∧
      Tuned kind (s.world.triggers.set s.next (t', ec)) := by
  obtain ⟨pending, rest, htriggers, hrest⟩ := htuned
  rw [hn, htriggers] at hi ⊢
  cases hi
  cases pending with
  | false => cases hpoll
  | true =>
    cases hpoll
    exact ⟨by simp only [finds, hn, htriggers, upgradePending], rfl, false, rest, rfl, hrest⟩

/-- **A look at a later stream** that completes the poll leads to a stop because of the
signal, and the poll has found nothing at the stream of the upgrade trigger. -/
theorem Attentive.look_later (hs : s.Attentive kind) {t t' : Trigger} {ec : ExitCondition}
    {item : Except String TriggerReason} (htuned : Tuned kind s.world.triggers)
    (hn : s.next ≠ 0) (hi : s.world.triggers[s.next]? = some (t, ec))
    (hpoll : t.pollNext s.world.runState = some (item, t')) (hsocket : t.isSocket = false) :
    s.finds = false ∧ (reaction item ec).stopsFor kind = true := by
  obtain ⟨n, hn⟩ := Nat.exists_eq_succ_of_ne_zero hn
  have hfinds : s.finds = false := by
    simp only [finds, hn]
    exact hs.unfound (by omega)
  refine ⟨hfinds, ?_⟩
  obtain ⟨pending, rest, htriggers, hrest⟩ := htuned
  rw [hn, htriggers, List.getElem?_cons_succ] at hi
  have hfollows := hrest _ (List.mem_of_getElem? hi)
  cases t with
  | uds path queue => cases hsocket
  | signal k held =>
    cases held with
    | false => cases hpoll
    | true =>
      cases hpoll
      obtain ⟨hec, hk⟩ := hfollows
      cases hk rfl
      cases ec with
      | upgrade => exact absurd rfl hec
      | stop | partialStop =>
        simp [reaction, World.dispatch, Point.stopsFor, TriggerReason.exitReason]

/-- A look does not lead to a stop because of the signal exactly when it does not complete
the poll, or the poll has found the signal at the stream of the upgrade trigger. -/
theorem Attentive.look (hs : s.Attentive kind) (hpoint : s.world.point = .polling)
    (hsocket : s.socketFires = false) :
    (s.look.world.point.stopsFor kind = false ↔ (!s.completes || s.finds) = true) ∧
      ((!s.completes || s.finds) = true →
        Attentive kind ⟨s.look, s.finds⟩) := by
  have htuned := hs.tuned (by rw [hpoint]; rfl)
  cases hi : s.world.triggers[s.next]? with
  | none =>
    have hcompletes : s.completes = false := by simp [Looking.completes, hpoint, hi]
    rw [Looking.look_end hi, hcompletes]
    exact ⟨iff_of_true hs.going rfl, fun _ => ⟨fun _ => htuned, hs.going, by simp⟩⟩
  | some t =>
    obtain ⟨t, ec⟩ := t
    cases hpoll : t.pollNext s.world.runState with
    | none =>
      have hcompletes : s.completes = false := by simp [Looking.completes, hpoint, hi, hpoll]
      have hfinds := hs.unfound_of_pending htuned hi hpoll
      rw [Looking.look_pending hi hpoll, hcompletes]
      exact ⟨iff_of_true hs.going rfl, fun _ => ⟨fun _ => htuned, hs.going, fun _ => hfinds⟩⟩
    | some r =>
      obtain ⟨item, t'⟩ := r
      have hcompletes : s.completes = true := by simp [Looking.completes, hpoint, hi, hpoll]
      rw [Looking.look_ready hi hpoll, hcompletes, Bool.not_true, Bool.false_or]
      by_cases hn : s.next = 0
      · obtain ⟨hfinds, hgoing, htuned'⟩ := look_first htuned hn hi hpoll
        exact ⟨iff_of_true hgoing hfinds,
          fun _ => ⟨fun _ => htuned', hgoing, fun h => absurd h (Nat.lt_irrefl 0)⟩⟩
      · have hsignal : t.isSocket = false := by
          simpa [Looking.socketFires, hcompletes, hi] using hsocket
        obtain ⟨hfinds, hstops⟩ := hs.look_later htuned hn hi hpoll hsignal
        rw [hfinds]
        exact ⟨iff_of_false (by rw [hstops]; decide) Bool.false_ne_true,
          fun h => absurd h Bool.false_ne_true⟩

/-- A step of the monitor that is no look keeps it. -/
theorem Attentive.monitor {w : World} {io : Option String} (hs : s.Attentive kind)
    (hpoint : s.world.point ≠ .polling) (h : s.world.monitor io = some w) :
    Attentive kind ⟨⟨w, 0⟩, s.finds⟩ := by
  refine ⟨fun hleaving => ?_, World.stopsFor_monitor hpoint hs.going h, by simp⟩
  have hleaving' := World.not_leaving_of_step (e := .monitor io) h hleaving
  rw [World.triggers_of_monitor hpoint hleaving' h]
  exact hs.tuned hleaving'

/-- A step beside the monitor that does not arrive at a stream keeps it. -/
theorem Attentive.beside {w : World} {e : World.Event} (hs : s.Attentive kind)
    (he : ∀ io, e ≠ .monitor io) (hquiet : s.quiet (.own e) = true)
    (h : s.world.step e = some w) : Attentive kind ⟨⟨w, s.next⟩, s.found⟩ := by
  obtain ⟨hpoint, -⟩ := World.step_beside h he
  refine ⟨?_, by rw [hpoint]; exact hs.going, hs.unfound⟩
  intro hleaving
  rw [hpoint] at hleaving
  have htuned := hs.tuned hleaving
  rcases World.triggers_beside h he with hsame | ⟨i, a, rfl, htriggers⟩
  · rw [hsame]
    exact htuned
  · rw [htriggers]
    cases a with
    | signal => cases hquiet
    | connection res => exact htuned.connect i res

/-- **Step lemma**: a step does not begin a stop because of the signal exactly when it does
not complete a poll, or a poll that has found the signal at the stream of the upgrade
trigger. -/
theorem Attentive.step {parent : Proc} {triggers : List (Trigger × ExitCondition)}
    {notifier : Option (List Notice)} {e : SignalEvent} (hs : s.Attentive kind)
    (h : (signalled kind parent triggers notifier).step s e = some s') :
    (s'.world.point.stopsFor kind = false ↔ s.renewed e = true) ∧
      (s.renewed e = true → s'.Attentive kind) := by
  simp only [signalled] at h
  split at h
  · rename_i hquiet
    cases e with
    | deliver =>
      cases h
      exact ⟨iff_of_true hs.going rfl,
        fun _ => ⟨fun hleaving => (hs.tuned hleaving).deliver, hs.going, hs.unfound⟩⟩
    | own e =>
      by_cases he : ∃ io, e = .monitor io
      · obtain ⟨io, rfl⟩ := he
        obtain ⟨l, hl, rfl⟩ := Option.map_eq_some_iff.mp h
        by_cases hpoint : s.world.point = .polling
        · simp only [Looking.step, hpoint, Option.some.injEq] at hl
          rw [← hl]
          exact hs.look hpoint (by simpa [quiet] using hquiet)
        · have hrenewed : s.renewed (.own (.monitor io)) = true := by
            simp only [renewed, Looking.completes_of_ne hpoint, Bool.not_false, Bool.true_or]
          simp only [Looking.step] at hl
          obtain ⟨w, hw, rfl⟩ := Option.map_eq_some_iff.mp hl
          have hattentive := hs.monitor hpoint hw
          exact ⟨iff_of_true hattentive.going hrenewed, fun _ => hattentive⟩
      · have hne : ∀ io, e ≠ .monitor io := fun io heq => he ⟨io, heq⟩
        have hbeside : s.step kind (.own e) =
            (s.world.step e).map fun w => ⟨⟨w, s.next⟩, s.found⟩ := by
          cases e with
          | monitor io => exact absurd rfl (hne io)
          | _ => simp only [Attending.step, Looking.step, notes, Option.map_map, Function.comp_def]
        have hrenewed : s.renewed (.own e) = true := by
          cases e <;> first | rfl | exact absurd rfl (hne _)
        rw [hbeside] at h
        obtain ⟨w, hw, rfl⟩ := Option.map_eq_some_iff.mp h
        have hattentive := hs.beside hne hquiet hw
        exact ⟨iff_of_true hattentive.going hrenewed, fun _ => hattentive⟩
  · cases h

end Attending

/-- **The same signal for upgrading and for exiting means upgrade, as long as it is there
when a poll looks for it.**  For every builder and every run in which every signal delivered
is its upgrade signal and no socket fires, the process never stops because of that signal,
fully or partially, if and only if each poll that completes has found it at the stream of the
upgrade trigger: no upgrade fails without the signal having been delivered again when the
monitor next looks there, and none is delivered first between that look and the look at the
stream of the exit trigger. -/
theorem same_signal_upgrades_iff (kind : ℕ) (calls : List (Option Registration)) (parent : Proc)
    (notifier : Option (List Notice)) (es : List SignalEvent) :
    (signalled kind parent (build kind calls) notifier).Along
        (fun _ _ s' => s'.world.point.stopsFor kind = false)
        (.init parent (build kind calls) notifier) es ↔
      (signalled kind parent (build kind calls) notifier).Along
        (fun s e _ => s.renewed e = true) (.init parent (build kind calls) notifier) es := by
  refine TransitionSystem.along_iff (I := Attending.Attentive kind) ?_ ?_ es
  · intro s e s' hs h
    exact hs.step h
  · exact ⟨fun _ => tuned_build kind calls, rfl, fun _ => rfl⟩

/-! ### Two ways to stop on a signal that means upgrade -/

/-- The builder of a process that upgrades and stops on the same signal. -/
def upgradeAndStop : List (Trigger × ExitCondition) :=
  build 1 [some (.stopOnSignal 1)]

/-- The signal is delivered once, the upgrade fails, and the monitor polls again. -/
def deliveredOnce : List SignalEvent :=
  ([.own (.monitor none), .deliver, .own (.monitor none), .own (.monitor none),
    .own (.monitor none)] : List SignalEvent) ++
  (beginUpgrade.drop 5 ++ crash).map .own ++
  List.replicate 9 (.own (.monitor none))

/-- The signal is delivered between the two looks of a poll. -/
def deliveredBetweenLooks : List SignalEvent :=
  ([.own (.monitor none), .own (.monitor none), .deliver] : List SignalEvent) ++
  List.replicate 7 (.own (.monitor none))

/-- The process has stopped because of the signal. -/
def stoppedBy (kind : ℕ) (s : Attending) : Bool :=
  match s.world.point with
  | .returned (.ok (.fullStop, .signal k)) => k = kind
  | _ => false

theorem stoppedBy_eq_true {kind : ℕ} {s : Attending} (h : stoppedBy kind s = true) :
    s.world.point = .returned (.ok (.fullStop, .signal kind)) := by
  unfold stoppedBy at h
  split at h
  · rename_i k hpoint
    rw [hpoint, of_decide_eq_true h]
  · cases h

/-- A single delivery ends in a full stop when the upgrade it starts fails, and when it
comes between the look at the stream of the upgrade trigger and the look at the other. -/
theorem one_delivery_upgrades_and_stops :
    (signalled 1 listeningProc upgradeAndStop none).Init
      (.init listeningProc upgradeAndStop none) ∧
    ∀ es ∈ [deliveredOnce, deliveredBetweenLooks],
      ∃ s, (signalled 1 listeningProc upgradeAndStop none).run
          (.init listeningProc upgradeAndStop none) es = some s ∧
        s.world.point = .returned (.ok (.fullStop, .signal 1)) := by
  refine ⟨⟨⟨wf_listeningProc, rfl, rfl⟩, rfl⟩, ?_⟩
  have hstops : ∀ es ∈ [deliveredOnce, deliveredBetweenLooks],
      ((signalled 1 listeningProc upgradeAndStop none).run
        (.init listeningProc upgradeAndStop none) es).map (stoppedBy 1) = some true := by
    decide +kernel
  intro es hes
  obtain ⟨s, hrun, hstopped⟩ := TransitionSystem.exists_run
    (signalled 1 listeningProc upgradeAndStop none) (.init listeningProc upgradeAndStop none) es
    (stoppedBy 1) (hstops es hes)
  exact ⟨s, hrun, stoppedBy_eq_true hstopped⟩

end Upgrader
