/-
# What is sent to systemd

The faithful model of `tokio_ecdysis/systemd_notify.rs`: the datagrams of a
`SystemdNotifier`, each a text of assignments, and what systemd reads in them.

* `perform_eq` : each method computes its assignments, or fails, and hands them to `notify`.
* `notice_read_back` : what a method has sent is read back as its assignments; those the
  application makes up itself exactly when they are clean.
* `transcript` : the chronicle of a monitor with the texts it and the children's monitors
  send; `systemd_reads_chronicle` says that systemd reads in them what the chronicle
  records, and that the process it takes for the main one is the one they name.
-/
import Ecdysis.Assignments
import Ecdysis.InitChild
import Ecdysis.SystemdView

namespace SystemdNotify

/-! ## The notifier -/

/-- `std::time::Duration`. -/
structure Duration where
  secs : ℕ
  nanos : ℕ
  secs_lt : secs < 2 ^ 64
  nanos_lt : nanos < 10 ^ 9

/-- `Duration::as_micros`. -/
def Duration.asMicros (d : Duration) : ℕ := d.secs * 10 ^ 6 + d.nanos / 1000

/-- The product fits the `u128` it is computed in. -/
theorem Duration.asMicros_lt (d : Duration) : d.asMicros < 2 ^ 128 := by
  have hsecs := d.secs_lt
  have hnanos := d.nanos_lt
  unfold asMicros
  omega

/-- `io::ErrorKind`: `Other`, or one the system reports. -/
inductive ErrorKind
  | other
  | system (code : ℕ)
  deriving DecidableEq

/-- An `io::Error` with its text. -/
structure IoError where
  kind : ErrorKind
  msg : String
  deriving DecidableEq

/-- The text of some assignments. -/
def message (states : List (String × String)) : String :=
  "\n".intercalate (states.map fun kv => kv.1 ++ "=" ++ kv.2)

/-- `SystemdNotifier::notify`: the datagram that is sent, or the error; `send` is the error
of the system call, if there is one. -/
def notify (states : List (String × String)) (send : Option IoError) : Except IoError String :=
  match send with
  | none => .ok (message states)
  | some e => .error ⟨e.kind, "Failed to send notification to systemd: " ++ e.msg⟩

/-- `u64::try_from`. -/
def toU64 (n : ℕ) (msg : String) : Except IoError ℕ :=
  if n < 2 ^ 64 then .ok n else .error ⟨.other, msg⟩

/-- `notify_ready`. -/
def notifyReady (pid : ℕ) (send : Option IoError) : Except IoError String :=
  notify [("READY", "1"), ("MAINPID", toString pid)] send

/-- `notify_reloading`. -/
def notifyReloading (clock : Except IoError Duration) (send : Option IoError) :
    Except IoError String := do
  let now ← clock
  let monotime ← toU64 now.asMicros "CLOCK_MONOTONIC value is greater than the size of a u64"
  notify [("RELOADING", "1"), ("MONOTONIC_USEC", toString monotime)] send

/-- `notify_stopping`. -/
def notifyStopping (send : Option IoError) : Except IoError String :=
  notify [("STOPPING", "1")] send

/-- `notify_extend_timeouts`. -/
def notifyExtendTimeouts (extension : Duration) (send : Option IoError) :
    Except IoError String := do
  let micros ← toU64 extension.asMicros "extension value is greater than the size of a u64"
  notify [("EXTEND_TIMEOUT_USEC", toString micros)] send

/-- A call of one of the methods, by the process `pid` or with what it reads. -/
inductive Call
  | notify (states : List (String × String))
  | ready (pid : ℕ)
  | reloading (clock : Except IoError Duration)
  | stopping
  | extendTimeouts (extension : Duration)

/-- The call. -/
def Call.perform : Call → Option IoError → Except IoError String
  | .notify states => SystemdNotify.notify states
  | .ready pid => notifyReady pid
  | .reloading clock => notifyReloading clock
  | .stopping => notifyStopping
  | .extendTimeouts extension => notifyExtendTimeouts extension

/-! ## What systemd reads -/

/-- The assignments of a datagram. -/
def assignments (text : String) : List (String × String) :=
  (Assignments.read '=' '\n' text.toList).map fun kv => (.ofList kv.1, .ofList kv.2)

/-- The number assigned to a variable. -/
def number (text name : String) : Option ℕ :=
  ((assignments text).lookup name).bind fun value => parseDigits value.toList

/-- What is needed to read an assignment back. -/
def Clean (kv : String × String) : Prop :=
  '=' ∉ kv.1.toList ∧ '\n' ∉ kv.1.toList ∧ '\n' ∉ kv.2.toList

/-- **Assignments are read back** exactly when they are clean. -/
theorem assignments_message_iff (states : List (String × String)) :
    assignments (message states) = states ↔ ∀ kv ∈ states, Clean kv := by
  let chars : String × String → List Char × List Char := fun kv => (kv.1.toList, kv.2.toList)
  have hwrite : (message states).toList = Assignments.write '=' '\n' (states.map chars) := by
    simp [message, Assignments.write, Assignments.writeLine, String.toList_intercalate, chars,
      Function.comp_def]
  have hback : ∀ kvs : List (List Char × List Char),
      (kvs.map fun kv => ((String.ofList kv.1, String.ofList kv.2) : String × String)) = states ↔
        kvs = states.map chars := by
    intro kvs
    constructor
    · rintro rfl
      simp [chars, Function.comp_def]
    · rintro rfl
      simp [chars, Function.comp_def]
  rw [assignments, hback, hwrite, Assignments.read_write_iff (by decide), List.forall_mem_map]
  rfl

theorem newline_not_mem_toString (n : ℕ) : '\n' ∉ (toString n).toList := by
  intro hmem
  have hdigits : (toString n).toList = Nat.toDigits 10 n := Nat.toList_repr
  rw [hdigits] at hmem
  have hdigit := Nat.isDigit_of_mem_toDigits (by decide) (by decide) hmem
  exact absurd hdigit (by decide)

theorem parseDigits_toString (n : ℕ) : parseDigits (toString n).toList = some n := by
  have hdigits : (toString n).toList = Nat.toDigits 10 n := Nat.toList_repr
  rw [hdigits, parseDigits_toDigits]

/-! ## What a call sends -/

/-- The assignments of a call, or the error it returns before it sends anything. -/
def Call.states : Call → Except IoError (List (String × String))
  | .notify states => .ok states
  | .ready pid => .ok [("READY", "1"), ("MAINPID", toString pid)]
  | .reloading clock => do
    let now ← clock
    let monotime ← toU64 now.asMicros "CLOCK_MONOTONIC value is greater than the size of a u64"
    return [("RELOADING", "1"), ("MONOTONIC_USEC", toString monotime)]
  | .stopping => .ok [("STOPPING", "1")]
  | .extendTimeouts extension => do
    let micros ← toU64 extension.asMicros "extension value is greater than the size of a u64"
    return [("EXTEND_TIMEOUT_USEC", toString micros)]

/-- What a call can send: microseconds that fit in a `u64`. -/
def Call.Sendable : Call → Prop
  | .reloading clock => ∃ now, clock = .ok now ∧ now.asMicros < 2 ^ 64
  | .extendTimeouts extension => extension.asMicros < 2 ^ 64
  | .notify _ | .ready _ | .stopping => True

theorem bind_eq_ok {α β : Type} {x : Except IoError α} {f : α → Except IoError β} {b : β} :
    (x >>= f) = .ok b ↔ ∃ a, x = .ok a ∧ f a = .ok b := by
  cases x <;> simp [bind, Except.bind]

theorem toU64_eq_ok {n m : ℕ} {msg : String} : toU64 n msg = .ok m ↔ n < 2 ^ 64 ∧ n = m := by
  unfold toU64
  split
  · rename_i hlt
    simp only [Except.ok.injEq, hlt, true_and]
  · rename_i hlt
    exact ⟨fun h => (nomatch h), fun h => absurd h.1 hlt⟩

/-- **Each method computes its assignments and hands them to `notify`.** -/
theorem perform_eq (c : Call) (send : Option IoError) :
    c.perform send = c.states >>= fun states => notify states send := by
  cases c with
  | notify states | ready pid | stopping => rfl
  | reloading clock =>
    simp only [Call.perform, notifyReloading, Call.states, bind_assoc, pure_bind]
  | extendTimeouts extension =>
    simp only [Call.perform, notifyExtendTimeouts, Call.states, bind_assoc, pure_bind]

theorem perform_eq_ok {c : Call} {send : Option IoError} {text : String} :
    c.perform send = .ok text ↔
      send = none ∧ ∃ states, c.states = .ok states ∧ text = message states := by
  rw [perform_eq, bind_eq_ok]
  cases send <;> simp [notify, eq_comm]

theorem states_isOk_iff (c : Call) : (∃ states, c.states = .ok states) ↔ c.Sendable := by
  cases c with
  | notify states | ready pid | stopping => simp [Call.states, Call.Sendable]
  | reloading clock =>
    simp only [Call.states, Call.Sendable, bind_eq_ok, toU64_eq_ok]
    constructor
    · rintro ⟨states, now, hnow, micros, ⟨hlt, -⟩, -⟩
      exact ⟨now, hnow, hlt⟩
    · rintro ⟨now, hnow, hlt⟩
      exact ⟨_, now, hnow, _, ⟨hlt, rfl⟩, rfl⟩
  | extendTimeouts extension =>
    simp only [Call.states, Call.Sendable, bind_eq_ok, toU64_eq_ok]
    constructor
    · rintro ⟨states, micros, ⟨hlt, -⟩, -⟩
      exact hlt
    · intro hlt
      exact ⟨_, _, ⟨hlt, rfl⟩, rfl⟩

/-- What the methods make up themselves is clean. -/
theorem clean_states {c : Call} {states : List (String × String)} (hc : ∀ l, c ≠ .notify l)
    (h : c.states = .ok states) : ∀ kv ∈ states, Clean kv := by
  have hnumber : ∀ (name : String) (n : ℕ), '=' ∉ name.toList → '\n' ∉ name.toList →
      Clean (name, toString n) :=
    fun name n hmark hline => ⟨hmark, hline, newline_not_mem_toString n⟩
  cases c with
  | notify l => exact absurd rfl (hc l)
  | ready pid =>
    cases h
    rintro kv hkv
    rcases List.mem_pair.mp hkv with rfl | rfl
    · exact ⟨by decide, by decide, by decide⟩
    · exact hnumber _ _ (by decide) (by decide)
  | reloading clock =>
    obtain ⟨now, -, h⟩ := bind_eq_ok.mp h
    obtain ⟨monotime, -, h⟩ := bind_eq_ok.mp h
    cases h
    rintro kv hkv
    rcases List.mem_pair.mp hkv with rfl | rfl
    · exact ⟨by decide, by decide, by decide⟩
    · exact hnumber _ _ (by decide) (by decide)
  | stopping =>
    cases h
    rintro kv hkv
    obtain rfl := List.mem_singleton.mp hkv
    exact ⟨by decide, by decide, by decide⟩
  | extendTimeouts extension =>
    obtain ⟨micros, -, h⟩ := bind_eq_ok.mp h
    cases h
    rintro kv hkv
    obtain rfl := List.mem_singleton.mp hkv
    exact hnumber _ _ (by decide) (by decide)

/-- **What is sent is read back.**  A call sends a datagram exactly when the system takes it
and the microseconds it is to carry fit in a `u64`; systemd reads in it the assignments of
the call, and, where the application has made them up, exactly when they are clean. -/
theorem notice_read_back (c : Call) (send : Option IoError) :
    ((∃ text, c.perform send = .ok text) ↔ send = none ∧ c.Sendable) ∧
    ∀ text, c.perform send = .ok text → ∃ states, c.states = .ok states ∧
      (assignments text = states ↔ ∀ kv ∈ states, Clean kv) ∧
      ((∀ l, c ≠ .notify l) → assignments text = states) := by
  refine ⟨?_, fun text h => ?_⟩
  · rw [← states_isOk_iff]
    constructor
    · rintro ⟨text, h⟩
      obtain ⟨hsend, states, hstates, -⟩ := perform_eq_ok.mp h
      exact ⟨hsend, states, hstates⟩
    · rintro ⟨hsend, states, hstates⟩
      exact ⟨_, perform_eq_ok.mpr ⟨hsend, states, hstates, rfl⟩⟩
  · obtain ⟨-, states, hstates, rfl⟩ := perform_eq_ok.mp h
    have hiff := assignments_message_iff states
    exact ⟨states, hstates, hiff, fun hc => hiff.mpr (clean_states hc hstates)⟩

/-- The notice of a process with the number 42. -/
theorem notice_read_back_ready : ∃ text, (Call.ready 42).perform none = .ok text ∧
    assignments text = [("READY", "1"), ("MAINPID", toString 42)] := by
  obtain ⟨hsends, hread⟩ := notice_read_back (.ready 42) none
  obtain ⟨text, htext⟩ := hsends.mpr ⟨rfl, trivial⟩
  obtain ⟨states, hstates, -, heq⟩ := hread text htext
  cases hstates
  exact ⟨text, htext, heq (by simp)⟩

/-- A line break in a value is read as another assignment. -/
example : assignments (message [("STATUS", "up\nMAINPID=1")]) =
    [("STATUS", "up"), ("MAINPID", "1")] := by decide +kernel

end SystemdNotify

namespace Upgrader

open SystemdNotify

/-! ## The texts of a chronicle -/

/-- The call that sends a notice. -/
def Notice.call (pid : ℕ) (clock : Except SystemdNotify.IoError Duration) : Notice → Call
  | .ready => .ready pid
  | .reloading => .reloading clock
  | .stopping => .stopping

/-- The call that sends a message. -/
def Message.call (pid : ℕ) (clock : Except SystemdNotify.IoError Duration) (extension : Duration) :
    Message → Call
  | .notice n => n.call pid clock
  | .extendTimeouts => .extendTimeouts extension

/-- What a step finds: the clock, the extension the application asks for, and the outcome of
sending a datagram and of removing the file of a socket. -/
structure Findings where
  clock : Except SystemdNotify.IoError Duration
  extension : Duration
  send : Option SystemdNotify.IoError
  remove : Option String

/-- The notice `monitor` sends with its next step. -/
def World.utters (w : World) : Option Notice :=
  if w.notifier.isSome then
    match w.point with
    | .initializing => some .ready
    | .reloading _ => some .reloading
    | .notifyStopping _ => some .stopping
    | _ => none
  else none

/-- The datagram of that step, or its error. -/
def World.transmits (w : World) (pid : ℕ) (f : Findings) :
    Option (Except SystemdNotify.IoError String) :=
  w.utters.map fun n => (n.call pid f.clock).perform f.send

/-- The error of that step, as `monitor` goes on with it. -/
def World.outcome (w : World) (pid : ℕ) (f : Findings) : Option String :=
  match w.transmits pid f with
  | none => f.remove
  | some (.ok _) => none
  | some (.error e) => some e.msg

/-- The step is one of `monitor`. -/
def World.Event.ofMonitor : World.Event → Bool
  | .monitor _ => true
  | _ => false

/-- What can happen, with what it finds. -/
inductive Utterance
  | monitor (f : Findings)
  | beside (e : World.Event)
  | speak (c : ℕ) (m : Message) (f : Findings)

/-- **The transcript**: the chronicle with the texts that are sent, by processes with the
numbers `pids`.  A child whose call fails is not heard. -/
def transcript (pids : Process → ℕ) (parent : Proc) (triggers : List (Trigger × ExitCondition))
    (notifier : Option (List Notice)) :
    TransitionSystem ((World × List Entry) × List (Process × String)) Utterance where
  Init := fun r => (chronicle parent triggers notifier).Init r.1 ∧ r.2 = []
  step := fun r u =>
    let w := r.1.1
    let next := (chronicle parent triggers notifier).step r.1
    match u with
    | .monitor f =>
      (next (.own (.monitor (w.outcome (pids .parent) f)))).map fun c =>
        (c, r.2 ++ ((w.transmits (pids .parent) f).bind Except.toOption).toList.map
          (Process.parent, ·))
    | .beside e => if e.ofMonitor then none else (next (.own e)).map fun c => (c, r.2)
    | .speak c m f =>
      match (m.call (pids (.child c)) f.clock f.extension).perform f.send with
      | .ok text => (next (.speak c m)).map fun r' => (r', r.2 ++ [(.child c, text)])
      | .error _ => if w.speaks c m then some r else none

section

variable {pids : Process → ℕ} {parent : Proc} {triggers : List (Trigger × ExitCondition)}
  {notifier : Option (List Notice)} {w w' : World} {log : List Entry}
  {texts : List (Process × String)}

/-- The text is one in which systemd reads the message. -/
def Conveys (pids : Process → ℕ) (d : Process × Message) (x : Process × String) : Prop :=
  x.1 = d.1 ∧ ∃ clock extension, (d.2.call (pids d.1) clock extension).states =
    .ok (assignments x.2)

/-- What a message sends conveys it. -/
theorem conveys_of_perform {sender : Process} {m : Message} {f : Findings} {text : String}
    (h : (m.call (pids sender) f.clock f.extension).perform f.send = .ok text) :
    Conveys pids (sender, m) (sender, text) := by
  refine ⟨rfl, f.clock, f.extension, ?_⟩
  obtain ⟨-, hread⟩ := notice_read_back (m.call (pids sender) f.clock f.extension) f.send
  obtain ⟨states, hstates, -, heq⟩ := hread text h
  rw [heq fun l => by cases m with
    | notice n => cases n <;> exact nofun
    | extendTimeouts => exact nofun]
  exact hstates

/-- What the chronicle says about the notices of a step of `monitor`. -/
theorem datagrams_entries (io : Option String) :
    datagrams (w.deeds io ++ w.begins w') =
      if io = none then w.utters.toList.map fun n => (.parent, .notice n) else [] := by
  have hbegins : datagrams (w.begins w') = [] := by
    unfold World.begins
    split <;> rfl
  have hreport : ∀ n, datagrams (w.report n io) =
      if io = none ∧ w.notifier.isSome then [(.parent, .notice n)] else [] := by
    intro n
    unfold World.report
    cases io <;> split <;> simp [datagrams, *]
  have happend : ∀ es es' : List Entry, datagrams (es ++ es') = datagrams es ++ datagrams es' :=
    fun es es' => List.filterMap_append
  rw [happend, hbegins, List.append_nil]
  unfold World.deeds World.utters
  cases w.point with
  | initializing | reloading reason | notifyStopping ending =>
    simp only [hreport]
    by_cases hsome : w.notifier.isSome <;> by_cases hio : io = none <;> simp [hsome, hio]
  | polling =>
    dsimp only
    split <;> simp [datagrams]
  | cleanUp ending =>
    dsimp only
    split <;> simp [datagrams]
  | awaiting n reason =>
    cases w.result n <;> simp [datagrams]
  | closeUsed ec reason | stopAll ec reason | snapshot reason | returned res =>
    simp [datagrams]

/-- A step of `monitor` sends a text for each notice the chronicle records. -/
theorem conveys_of_monitor {pid : ℕ} (hpid : pid = pids .parent) (f : Findings) :
    List.Forall₂ (Conveys pids) (datagrams (w.deeds (w.outcome pid f) ++ w.begins w'))
      (((w.transmits pid f).bind Except.toOption).toList.map (Process.parent, ·)) := by
  rw [datagrams_entries]
  cases hutters : w.utters with
  | none => simp [World.transmits, hutters]
  | some n =>
    have htransmits : w.transmits pid f = some ((n.call pid f.clock).perform f.send) := by
      simp [World.transmits, hutters]
    obtain ⟨text, htext⟩ | ⟨e, herror⟩ :
        (∃ text, (n.call pid f.clock).perform f.send = .ok text) ∨
          ∃ e, (n.call pid f.clock).perform f.send = .error e := by
      cases (n.call pid f.clock).perform f.send <;> simp
    · rw [htext] at htransmits
      have houtcome : w.outcome pid f = none := by simp [World.outcome, htransmits]
      subst hpid
      rw [htransmits, houtcome, if_pos rfl]
      exact .cons (conveys_of_perform (m := .notice n) htext) .nil
    · rw [herror] at htransmits
      have houtcome : w.outcome pid f = some e.msg := by simp [World.outcome, htransmits]
      rw [htransmits, houtcome, if_neg (by simp)]
      exact .nil

/-- **Step lemma.** -/
theorem transcript_step {u : Utterance} {r r' : (World × List Entry) × List (Process × String)}
    (h : (transcript pids parent triggers notifier).step r u = some r') :
    (r'.1 = r.1 ∨ ∃ e, (chronicle parent triggers notifier).step r.1 e = some r'.1) ∧
    (List.Forall₂ (Conveys pids) (datagrams r.1.2) r.2 →
      List.Forall₂ (Conveys pids) (datagrams r'.1.2) r'.2) := by
  obtain ⟨⟨w, log⟩, texts⟩ := r
  cases u with
  | monitor f =>
    obtain ⟨⟨w', log'⟩, hnext, rfl⟩ := Option.map_eq_some_iff.mp h
    obtain ⟨-, rfl⟩ := TransitionSystem.recording_step_eq_some.mp hnext
    refine ⟨.inr ⟨_, hnext⟩, fun hall => ?_⟩
    rw [datagrams, List.filterMap_append]
    exact List.rel_append hall (conveys_of_monitor rfl f)
  | beside e =>
    simp only [transcript] at h
    split at h
    · cases h
    · rename_i hmonitor
      obtain ⟨⟨w', log'⟩, hnext, rfl⟩ := Option.map_eq_some_iff.mp h
      obtain ⟨-, rfl⟩ := TransitionSystem.recording_step_eq_some.mp hnext
      have hnil : w.entries (.own e) w' = [] := by
        cases e with
        | monitor io => exact absurd rfl hmonitor
        | _ => rfl
      refine ⟨.inr ⟨_, hnext⟩, fun hall => ?_⟩
      rw [hnil, List.append_nil]
      exact hall
  | speak c m f =>
    simp only [transcript] at h
    split at h
    · rename_i text hperform
      obtain ⟨⟨w', log'⟩, hnext, rfl⟩ := Option.map_eq_some_iff.mp h
      obtain ⟨-, rfl⟩ := TransitionSystem.recording_step_eq_some.mp hnext
      refine ⟨.inr ⟨_, hnext⟩, fun hall => ?_⟩
      rw [datagrams, List.filterMap_append]
      exact List.rel_append hall (.cons (conveys_of_perform hperform) .nil)
    · split at h
      · cases h
        exact ⟨.inl rfl, id⟩
      · cases h

/-- The main process systemd reads in a text is the one its message names. -/
theorem number_mainpid {d : Process × Message} {x : Process × String} (h : Conveys pids d x) :
    number x.2 "MAINPID" = (d.2.mainpid d.1).map pids := by
  obtain ⟨-, clock, extension, hstates⟩ := h
  obtain ⟨sender, m⟩ := d
  unfold number
  generalize assignments x.2 = states at hstates
  cases m with
  | extendTimeouts =>
    obtain ⟨micros, -, heq⟩ := bind_eq_ok.mp hstates
    cases heq
    rfl
  | notice n =>
    cases n with
    | ready =>
      cases hstates
      exact parseDigits_toString (pids sender)
    | reloading =>
      obtain ⟨now, -, heq⟩ := bind_eq_ok.mp hstates
      obtain ⟨monotime, -, heq⟩ := bind_eq_ok.mp heq
      cases heq
      rfl
    | stopping =>
      cases hstates
      rfl

/-- The main processes systemd reads in the texts, in order. -/
def mainNumbers (texts : List (Process × String)) : List ℕ :=
  texts.filterMap fun x => number x.2 "MAINPID"

theorem mainNumbers_eq {ds : List (Process × Message)}
    (h : List.Forall₂ (Conveys pids) ds texts) :
    mainNumbers texts = (ds.filterMap fun d => d.2.mainpid d.1).map pids := by
  unfold mainNumbers
  induction h with
  | nil => rfl
  | @cons d x ds texts hx _ ih =>
    rw [List.filterMap_cons, List.filterMap_cons, number_mainpid hx, ih]
    cases d.2.mainpid d.1 <;> rfl

/-- **systemd reads the chronicle.**  In every run, the texts sent by the parent's monitor and
by its children are, one by one and in order, texts in which systemd reads the messages of the
chronicle, and the numbers it reads for the main process are those of the processes they
name. -/
theorem systemd_reads_chronicle
    (hr : (transcript pids parent triggers notifier).Reachable ((w, log), texts)) :
    (chronicle parent triggers notifier).Reachable (w, log) ∧
    List.Forall₂ (Conveys pids) (datagrams log) texts ∧
    mainNumbers texts = (mainpids log).map pids := by
  have hall : List.Forall₂ (Conveys pids) (datagrams log) texts := by
    refine hr.invariant (I := fun r => List.Forall₂ (Conveys pids) (datagrams r.1.2) r.2) ?_
      fun r u r' _ hr h => (transcript_step h).2 hr
    rintro ⟨⟨w, log⟩, texts⟩ ⟨⟨-, hlog⟩, htexts⟩
    obtain rfl : log = [] := hlog
    obtain rfl : texts = [] := htexts
    exact .nil
  refine ⟨?_, hall, mainNumbers_eq hall⟩
  refine TransitionSystem.ReachableVia.map (M := transcript pids parent triggers notifier)
    (fun r => r.1) (fun r hinit => hinit.1) (fun r u r' _ _ h => ?_) hr
  rcases (transcript_step h).1 with hsame | ⟨e, hstep⟩
  · exact .inl hsame
  · exact .inr ⟨e, trivial, hstep⟩

end

/-! ### An upgrade as systemd reads it -/

/-- The parent has the number 42, its first child 43. -/
def numbered : Process → ℕ
  | .parent => 42
  | .child n => 43 + n

/-- Everything goes well, five microseconds after the first second. -/
def found : Findings where
  clock := .ok ⟨1, 5000, by decide, by decide⟩
  extension := ⟨0, 0, by decide, by decide⟩
  send := none
  remove := none

/-- An event and what it finds. -/
def heard : World.Event → Utterance
  | .monitor _ => .monitor found
  | e => .beside e

theorem systemd_reads_chronicle_ready :
    ∃ w log texts, (transcript numbered listeningProc socketTriggers (some [])).Reachable
        ((w, log), texts) ∧
      texts = [(.parent, "READY=1\nMAINPID=42"),
        (.parent, "RELOADING=1\nMONOTONIC_USEC=1000005"), (.child 0, "READY=1\nMAINPID=43")] ∧
      mainNumbers texts = (mainpids log).map numbered := by
  obtain ⟨⟨⟨w, log⟩, texts⟩, hrun, hp⟩ := TransitionSystem.exists_run
    (transcript numbered listeningProc socketTriggers (some [])) (supervisedInit, [])
    ((beginUpgrade ++ ([.family (.ready 0), .family (.notify 0), .family (.notify 0),
      .family (.close 0)] : List World.Event)).map heard ++ [.speak 0 (.notice .ready) found])
    (fun r => r.2 = [(.parent, "READY=1\nMAINPID=42"),
      (.parent, "RELOADING=1\nMONOTONIC_USEC=1000005"), (.child 0, "READY=1\nMAINPID=43")])
    (by decide +kernel)
  have hr := TransitionSystem.reachable_of_run
    (M := transcript numbered listeningProc socketTriggers (some []))
    (.init ⟨⟨⟨wf_listeningProc, rfl, rfl⟩, rfl⟩, rfl⟩) hrun
  exact ⟨w, log, texts, hr, of_decide_eq_true hp, (systemd_reads_chronicle hr).2.2⟩

end Upgrader
