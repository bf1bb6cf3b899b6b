/-
# How an upgraded process starts

`exec_upgraded` passes the numbers of the two pipes in the environment; `init_child` reads
them back, deserialises the list of listeners from the first pipe, and `Ecdysis::new`
either continues with that list or ends the process.

The bytes that the child gets from a number before the pipe ends, or before reading it
fails, are an argument: when the parent or its writer dies in the middle of the message
they are a proper prefix of it.

* `parseI32_toString` : a number that was printed is parsed as itself, so the child reads
  the numbers its parent wrote (`pipeFdFromEnv_execEnv`);
* `whole_list_or_exit` : a child whose input is a prefix of the message continues only
  with the whole list;
* `Ecdysis.new_execEnv` : a child of `exec_upgraded` that gets the whole message does.
-/
import Ecdysis.Registry

/-! ## The environment -/

/-- What `env::var` says about a variable. -/
inductive EnvVar
  | notPresent
  | notUnicode
  | value (s : String)

/-- The environment of a process. -/
abbrev Env := String → EnvVar

/-- `ENV_UPGRADE`. -/
def envUpgrade : String := "ECDYSIS_RUST_UPGRADE"

/-- `ENV_PIPE_READY`. -/
def envPipeReady : String := "ECDYSIS_RUST_PIPE_READY"

/-- `ENV_PIPE_FDS`. -/
def envPipeFds : String := "ECDYSIS_RUST_PIPE_FDS"

/-- `UPGRADE_TRUE_VAL`. -/
def upgradeTrueVal : String := "yes"

/-- `FdPair`: the two numbers that are passed to the child. -/
structure FdPair where
  recvListenersFd : RawFd
  sendReadyFd : RawFd

/-- The environment that `exec_upgraded` gives to the child: that of the parent with three
variables set and those of systemd removed. -/
def execEnv (env : Env) (pipeFds : FdPair) : Env := fun var =>
  if var = envUpgrade then .value upgradeTrueVal
  else if var = envPipeFds then .value (toString pipeFds.recvListenersFd.toInt)
  else if var = envPipeReady then .value (toString pipeFds.sendReadyFd.toInt)
  else if var ∈ ["LISTEN_PID", "LISTEN_FDNAMES", "LISTEN_FDS"] then .notPresent
  else env var

/-! ## `init_child` -/

/-- `InheritError`; the error of bincode is left out. -/
inductive InheritError
  | notAnUpgrade
  | deserializationError
  | badEnvironment (msg : String)
  deriving DecidableEq

/-- The digits of a number, at least one. -/
def parseDigits (cs : List Char) : Option ℕ :=
  if cs ≠ [] ∧ cs.all Char.isDigit then some (Nat.ofDigitChars 10 cs 0) else none

/-- An optional sign and digits. -/
def parseSigned : List Char → Option ℤ
  | '-' :: cs => (parseDigits cs).map fun n : ℕ => -(n : ℤ)
  | '+' :: cs => (parseDigits cs).map fun n : ℕ => (n : ℤ)
  | cs => (parseDigits cs).map fun n : ℕ => (n : ℤ)

/-- `str::parse` for `i32`, which fails on a number that does not fit. -/
def parseI32 (s : String) : Option Int32 :=
  ((parseSigned s.toList).filter fun n => -2 ^ 31 ≤ n ∧ n < 2 ^ 31).map Int32.ofInt

/-- `pipe_fd_from_env`. -/
def pipeFdFromEnv (env : Env) (envVar : String) : Except InheritError RawFd :=
  match env envVar with
  | .value fd =>
    match parseI32 fd with
    | some fd => .ok fd
    | none => .error (.badEnvironment (envVar ++ " is not an integer"))
  | .notPresent | .notUnicode => .error (.badEnvironment ("cannot read env var " ++ envVar))

/-- The first part of `init_child`: are we in an upgrade? -/
def inUpgrade (env : Env) : Except InheritError Unit :=
  match env envUpgrade with
  | .value s =>
    if s = upgradeTrueVal then .ok ()
    else .error (.badEnvironment ("Value of env var " ++ envUpgrade ++ " is not valid"))
  | .notPresent => .error .notAnUpgrade
  | .notUnicode => .error (.badEnvironment ("Value of env var " ++ envUpgrade ++ " is not valid"))

/-- `init_child`, in a process that reads the bytes `input fd` from a number `fd`.  That
`from_raw_fd` panics on `-1` is left out: a parent writes numbers of open descriptors. -/
def initChild (env : Env) (input : RawFd → List UInt8) :
    Except InheritError (List ListenerInfo × RawFd) := do
  inUpgrade env
  let inheritFd ← pipeFdFromEnv env envPipeFds
  let inheritedListeners ←
    (deserializeFrom (input inheritFd)).elim (.error .deserializationError) .ok
  -- the ready pipe is looked up only when the list has been read
  let readyFd ← pipeFdFromEnv env envPipeReady
  return (inheritedListeners, readyFd)

/-- `Ecdysis`, with the two lists of its registry. -/
structure Ecdysis where
  inheritedFds : List ListenerInfo
  usedFds : List ListenerInfo
  readyNotifier : Option RawFd
  pidFile : Option PathBuf
  child : Bool

/-- `Ecdysis::new`, or the status with which the process ends. -/
def Ecdysis.new (env : Env) (input : RawFd → List UInt8) : Except ℕ Ecdysis :=
  match initChild env input with
  | .ok (fds, readyPipe) => .ok ⟨fds, [], some readyPipe, none, true⟩
  | .error .notAnUpgrade => .ok ⟨[], [], none, none, false⟩
  | .error _ => .error 1

/-! ## Printed numbers -/

theorem parseDigits_toDigits (n : ℕ) : parseDigits (Nat.toDigits 10 n) = some n := by
  have hdigits : (Nat.toDigits 10 n).all Char.isDigit = true :=
    List.all_eq_true.mpr fun c hc => Nat.isDigit_of_mem_toDigits (by decide) (by decide) hc
  rw [parseDigits, if_pos ⟨Nat.toDigits_ne_nil, hdigits⟩, Nat.ofDigitChars_ten_toDigits]

theorem parseSigned_toString (n : ℤ) : parseSigned (toString n).toList = some n := by
  cases n with
  | ofNat n =>
    rw [Int.toString_eq_repr, Int.repr, Nat.toList_repr]
    have hparse := parseDigits_toDigits n
    cases hdigits : Nat.toDigits 10 n with
    | nil => exact absurd hdigits Nat.toDigits_ne_nil
    | cons c cs =>
      -- the first character is a digit and no sign
      have hmem : c ∈ Nat.toDigits 10 n := by
        rw [hdigits]
        exact List.mem_cons_self
      have hc : c.isDigit = true := Nat.isDigit_of_mem_toDigits (by decide) (by decide) hmem
      rw [hdigits] at hparse
      unfold parseSigned
      split
      · rename_i heq
        cases heq
        cases hc
      · rename_i heq
        cases heq
        cases hc
      · rw [hparse]
        rfl
  | negSucc n =>
    have hlist : (toString (Int.negSucc n)).toList = '-' :: Nat.toDigits 10 (n + 1) := by
      rw [Int.toString_eq_repr, Int.repr_eq_if, if_neg (by simp), String.toList_append,
        Nat.toList_repr]
      rfl
    rw [hlist, parseSigned, parseDigits_toDigits, Option.map_some]
    rfl

/-- **A printed number is parsed as itself.** -/
theorem parseI32_toString (fd : Int32) : parseI32 (toString fd.toInt) = some fd := by
  have hfits : -2 ^ 31 ≤ fd.toInt ∧ fd.toInt < 2 ^ 31 := ⟨fd.le_toInt, fd.toInt_lt⟩
  rw [parseI32, parseSigned_toString, Option.filter_some, if_pos (by simpa using hfits),
    Option.map_some, Int32.ofInt_toInt]

/-- The child reads the numbers that its parent has written. -/
theorem pipeFdFromEnv_execEnv (env : Env) (pipeFds : FdPair) :
    pipeFdFromEnv (execEnv env pipeFds) envPipeFds = .ok pipeFds.recvListenersFd ∧
      pipeFdFromEnv (execEnv env pipeFds) envPipeReady = .ok pipeFds.sendReadyFd := by
  have hfds : execEnv env pipeFds envPipeFds
      = .value (toString pipeFds.recvListenersFd.toInt) := rfl
  have hready : execEnv env pipeFds envPipeReady
      = .value (toString pipeFds.sendReadyFd.toInt) := rfl
  simp only [pipeFdFromEnv, hfds, hready, parseI32_toString, and_self]

/-! ## A message that ends early -/

section

variable {env : Env} {input : RawFd → List UInt8} {fd : RawFd} {fds : List ListenerInfo}
  {bs : List UInt8}

/-- The number of a pipe, or why it cannot be read. -/
theorem pipeFdFromEnv_cases (env : Env) (envVar : String) :
    (∃ fd, pipeFdFromEnv env envVar = .ok fd) ∨
      ∃ msg, pipeFdFromEnv env envVar = .error (.badEnvironment msg) := by
  unfold pipeFdFromEnv
  split
  · split
    · exact .inl ⟨_, rfl⟩
    · exact .inr ⟨_, rfl⟩
  · exact .inr ⟨_, rfl⟩
  · exact .inr ⟨_, rfl⟩

/-- `init_child` in an upgrade whose first pipe is known. -/
theorem initChild_eq (hupgrade : env envUpgrade = .value upgradeTrueVal)
    (hfd : pipeFdFromEnv env envPipeFds = .ok fd) :
    initChild env input = (deserializeFrom (input fd)).elim (.error .deserializationError) .ok >>=
      fun fds => pipeFdFromEnv env envPipeReady >>= fun readyFd => pure (fds, readyFd) := by
  have hin : inUpgrade env = .ok () := by simp [inUpgrade, hupgrade]
  rw [initChild, hin, hfd]
  rfl

/-- **What `init_child` makes of its input**, in an upgrade whose first pipe is known. -/
theorem initChild_cases (input : RawFd → List UInt8)
    (hupgrade : env envUpgrade = .value upgradeTrueVal)
    (hfd : pipeFdFromEnv env envPipeFds = .ok fd) :
    (deserializeFrom (input fd) = none ∧ initChild env input = .error .deserializationError) ∨
    ∃ fds, deserializeFrom (input fd) = some fds ∧
      ((∃ readyFd, initChild env input = .ok (fds, readyFd)) ∨
        ∃ msg, initChild env input = .error (.badEnvironment msg)) := by
  rw [initChild_eq hupgrade hfd]
  cases deserializeFrom (input fd) with
  | none => exact .inl ⟨rfl, rfl⟩
  | some fds =>
    refine .inr ⟨fds, rfl, ?_⟩
    rcases pipeFdFromEnv_cases env envPipeReady with ⟨readyFd, hready⟩ | ⟨msg, hready⟩
    · rw [hready]
      exact .inl ⟨readyFd, rfl⟩
    · rw [hready]
      exact .inr ⟨msg, rfl⟩

/-- Cut input is rejected before the ready pipe is looked up. -/
theorem initChild_of_truncated (hbs : serializeInto fds = some bs)
    (hupgrade : env envUpgrade = .value upgradeTrueVal)
    (hfd : pipeFdFromEnv env envPipeFds = .ok fd) (hpart : input fd <+: bs)
    (hne : input fd ≠ bs) : initChild env input = .error .deserializationError := by
  rw [initChild_eq hupgrade hfd, deserializeFrom_truncated hbs hpart hne]
  rfl

/-- **The child continues with the whole list or not at all.**  Its input is a prefix of the
message; if it is a proper one, `init_child` fails and the process ends.  Whenever
`Ecdysis::new` returns, the input was the whole message, and the registry has the listeners of
the parent and no others. -/
theorem whole_list_or_exit (hbs : serializeInto fds = some bs)
    (hupgrade : env envUpgrade = .value upgradeTrueVal)
    (hfd : pipeFdFromEnv env envPipeFds = .ok fd) (hpart : input fd <+: bs) :
    (input fd ≠ bs → initChild env input = .error .deserializationError ∧
      Ecdysis.new env input = .error 1) ∧
    ∀ e, Ecdysis.new env input = .ok e → input fd = bs ∧ e.child = true ∧
      e.inheritedFds = fds.map ListenerInfo.onWire ∧ e.usedFds = [] := by
  have hcut : input fd ≠ bs → initChild env input = .error .deserializationError :=
    initChild_of_truncated hbs hupgrade hfd hpart
  refine ⟨fun hne => ⟨hcut hne, by rw [Ecdysis.new, hcut hne]⟩, fun e hnew => ?_⟩
  have hwhole : input fd = bs := by
    by_contra hne
    rw [Ecdysis.new, hcut hne] at hnew
    cases hnew
  rcases initChild_cases input hupgrade hfd with
    ⟨-, hinit⟩ | ⟨fds', hread, ⟨readyFd, hinit⟩ | ⟨msg, hinit⟩⟩
  · rw [Ecdysis.new, hinit] at hnew
    cases hnew
  · rw [hwhole, deserializeFrom_serializeInto hbs, Option.some.injEq] at hread
    rw [Ecdysis.new, hinit] at hnew
    cases hnew
    exact ⟨hwhole, rfl, hread.symm, rfl⟩
  · rw [Ecdysis.new, hinit] at hnew
    cases hnew

/-- A child of a parent that died in the middle of a message with one listener. -/
theorem whole_list_or_exit_loopback :
    ∃ bs, serializeInto [loopbackListener] = some bs ∧
      Ecdysis.new (execEnv (fun _ => .notPresent) ⟨7, 9⟩) (fun _ => bs.take 17) = .error 1 := by
  obtain ⟨bs, hbs⟩ : ∃ bs, serializeInto [loopbackListener] = some bs := ⟨_, rfl⟩
  have hne : bs.take 17 ≠ bs := by
    cases hbs
    decide
  exact ⟨bs, hbs, ((whole_list_or_exit hbs rfl (pipeFdFromEnv_execEnv _ ⟨7, 9⟩).1
    (bs.take_prefix 17)).1 hne).2⟩

/-- **A child of `exec_upgraded`** starts with the whole list and the pipe for its
notification if it gets the whole message, and ends otherwise. -/
theorem Ecdysis.new_execEnv {pipeFds : FdPair} (env : Env) (hbs : serializeInto fds = some bs)
    (hpart : input pipeFds.recvListenersFd <+: bs) :
    Ecdysis.new (execEnv env pipeFds) input =
      if input pipeFds.recvListenersFd = bs then
        .ok ⟨fds.map ListenerInfo.onWire, [], some pipeFds.sendReadyFd, none, true⟩
      else .error 1 := by
  obtain ⟨hfd, hready⟩ := pipeFdFromEnv_execEnv env pipeFds
  have hupgrade : execEnv env pipeFds envUpgrade = .value upgradeTrueVal := rfl
  split
  · rename_i hwhole
    have hinit : initChild (execEnv env pipeFds) input
        = .ok (fds.map ListenerInfo.onWire, pipeFds.sendReadyFd) := by
      rw [initChild_eq hupgrade hfd, hwhole, deserializeFrom_serializeInto hbs, hready]
      rfl
    rw [Ecdysis.new, hinit]
  · rename_i hne
    rw [Ecdysis.new, initChild_of_truncated hbs hupgrade hfd hpart hne]

end
