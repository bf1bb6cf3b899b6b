/-
# Descriptor numbers along a chain of upgrades

`clone_fd` passes the number it duplicates as the lower bound of the duplicate.  A
child starts with its parent's duplicates and duplicates them again, so the numbers of
the entries in use only grow: in generation `n` they are all above `n` (`Progress`).
The descriptor limit is reached after finitely many upgrades, however few descriptors
are open, and `unlimited_generations_iff` says that this happens to every program that
hands over a socket at all.

A chain (`Chain k B L`) is a sequence of processes with limit `L` in which the first
makes `k` sockets, each further one claims the `k` sockets it inherited and nothing
else, and none ever has more than `B` descriptors open besides the sockets it claimed
and the entries of its registry.
-/
import Ecdysis.Generations

open FirstMatch

/-! ## Chains -/

/-- At most `B` numbers are in use besides those of the registry and those handed out. -/
def Life.OthersAtMost (s : Life) (B : ℕ) : Prop :=
  ∃ others : List RawFd, others.length ≤ B ∧ ∀ fd, (s.proc.table fd).isSome →
    fd ∈ s.proc.registered ∨ fd ∈ s.handed ∨ fd ∈ others

/-- The request is for one of the `k` sockets: a new one in the first process, under the
lowest free number and reported as requested; an inherited one in the others. -/
def Life.Claims (n k : ℕ) (s : Life) (r : Request) : Prop :=
  s.handed.length < k ∧
    if n = 0 then ∃ fd file, r.creation = .created fd file r.key ∧
      s.proc.table.lowestFree (slots s.proc.limit) 0 = some fd
    else (s.proc.inheritedFds.any fun li => li.sockInfo == r.key) = true

/-- What the process of generation `n` may do. -/
def Life.Economical (n k B : ℕ) (s : Life) : Life.Event → Prop
  | .listen r => s.OthersAtMost B ∧ s.Claims n k r
  | .datagramPair _ _ => False
  | _ => s.OthersAtMost B

/-- `p` is the start of generation `n`, after `n` successful upgrades. -/
inductive Chain (k B L : ℕ) : ℕ → Proc → Prop
  | first {p : Proc} : p.limit = L → p.inheritedFds = [] → p.usedFds = [] → Chain k B L 0 p
  | next {n : ℕ} {p c : Proc} {s : Life} : Chain k B L n p →
      (life p).ReachableVia (Life.Economical n k B) s → s.OthersAtMost B →
      s.proc.inheritedFds = [] → s.proc.usedFds.length = k → s.snapshot = s.proc.usedFds →
      s.proc.spawnChild s.snapshot = some c → Chain k B L (n + 1) c

/-- Every duplication in generation `n` of every chain succeeds. -/
def EveryDupSucceeds (k B L n : ℕ) : Prop :=
  ∀ p s r, Chain k B L n p → (life p).ReachableVia (Life.Economical n k B) s →
    s.Economical n k B (.listen r) → s.proc.dupsSucceed r.key r.creation = true

/-! ## Numbers -/

theorem slots_nodup {L : ℕ} (hL : L ≤ 2 ^ 31) : (slots L).Nodup := by
  refine List.Nodup.map_on ?_ List.nodup_range
  intro a ha b hb hab
  rw [List.mem_range] at ha hb
  have h := congrArg Int32.toInt hab
  rw [Int32.toInt_ofNat_of_lt (by omega), Int32.toInt_ofNat_of_lt (by omega)] at h
  omega

theorem nonneg_of_mem_slots {L : ℕ} (hL : L ≤ 2 ^ 31) {fd : RawFd} (h : fd ∈ slots L) :
    0 ≤ fd.toInt := by
  obtain ⟨i, hi, rfl⟩ := List.mem_map.mp h
  rw [List.mem_range] at hi
  rw [Int32.toInt_ofNat_of_lt (by omega)]
  omega

theorem lt_of_mem_slots {L : ℕ} (hL : L ≤ 2 ^ 31) {fd : RawFd} (h : fd ∈ slots L) :
    fd.toInt < L := by
  obtain ⟨i, hi, rfl⟩ := List.mem_map.mp h
  rw [List.mem_range] at hi
  rw [Int32.toInt_ofNat_of_lt (by omega)]
  omega

theorem toInt_lt_of_le_of_ne {a b : RawFd} (hle : a ≤ b) (hne : b ≠ a) : a.toInt < b.toInt := by
  have h := Int32.le_iff_toInt_le.mp hle
  have h' : b.toInt ≠ a.toInt := fun heq => hne (Int32.toInt_inj.mp heq)
  omega

/-! ## Requests that succeed -/

namespace Proc

variable {p : Proc} {k info : SockInfo} {li : ListenerInfo} {fd : RawFd} {file : ℕ}

/-- What two numbers opened one after the other leave open. -/
theorem isSome_openFd_openFd {fd₁ fd₂ : RawFd} {d₁ d₂ : Desc}
    (h : (((p.openFd fd₁ d₁).openFd fd₂ d₂).table fd).isSome) :
    fd = fd₂ ∨ fd = fd₁ ∨ (p.table fd).isSome := by
  by_cases h₂ : fd = fd₂
  · exact .inl h₂
  · by_cases h₁ : fd = fd₁
    · exact .inr (.inl h₁)
    · exact .inr (.inr (by simpa [openFd, h₁, h₂] using h))

/-- Numbers opened close-on-exec. -/
theorem flag_openFd_openFd {fd₁ fd₂ : RawFd} {file₁ file₂ : ℕ} {d : Desc}
    (h : ((p.openFd fd₁ ⟨file₁, true⟩).openFd fd₂ ⟨file₂, true⟩).table fd = some d) :
    d.cloexec = true ∨ (fd ≠ fd₁ ∧ p.table fd = some d) := by
  by_cases h₂ : fd = fd₂
  · subst h₂
    simp only [openFd, DescriptorTable.assign_self, Option.some.injEq] at h
    exact .inl (h ▸ rfl)
  · by_cases h₁ : fd = fd₁
    · subst h₁
      simp only [openFd, DescriptorTable.assign_of_ne _ h₂, DescriptorTable.assign_self,
        Option.some.injEq] at h
      exact .inl (h ▸ rfl)
    · exact .inr ⟨h₁, by simpa [openFd, h₁, h₂] using h⟩

/-- A successful duplication in `add`. -/
theorem add_of_isOk {d : Desc} (item : ListenerInfo) (hd : p.table item.fd = some d)
    (h : (p.cloneFd item.fd).isOk = true) :
    ∃ m, m ∈ slots p.limit ∧ item.fd ≤ m ∧ p.table m = none ∧
      p.add item = .ok { p.openFd m { d with cloexec := true } with
        usedFds := p.usedFds ++ [⟨m, item.sockInfo⟩] } := by
  cases hadd : p.add item with
  | error e => exact absurd hadd (add_ne_error h)
  | ok q =>
    obtain ⟨m, d', hd', hslot, hle, hfree, rfl⟩ := add_eq_ok hadd
    rw [hd] at hd'
    cases hd'
    exact ⟨m, hslot, hle, hfree, rfl⟩

/-- An inherited socket is claimed: its number is handed out, and a larger one is
entered among those in use. -/
theorem listenWith_claims {c : Creation SockInfo} {d : Desc}
    (hfind : p.inheritedFds.find? (fun li => li.sockInfo == k) = some li)
    (hd : p.table li.fd = some d) (hdup : p.dupsSucceed k c = true) :
    ∃ m, m ∈ slots p.limit ∧ li.fd.toInt < m.toInt ∧ p.table m = none ∧
      p.listenWith k c true = some (.ok (.inherited, li.fd),
        { (p.openFd li.fd { d with cloexec := true }).openFd m { d with cloexec := true } with
          inheritedFds := p.inheritedFds.eraseP fun li => li.sockInfo == k
          usedFds := p.usedFds ++ [⟨m, k⟩] }) := by
  set q : Proc := { p.openFd li.fd { d with cloexec := true } with
    inheritedFds := p.inheritedFds.eraseP fun li => li.sockInfo == k } with hq
  have htake : p.take k = some (some li.fd, q) := by
    simp only [take, hfind, setCloexec, hd, Option.map_some]
    rfl
  have hqd : q.table li.fd = some { d with cloexec := true } := by simp [hq, openFd]
  simp only [dupsSucceed, htake] at hdup
  obtain ⟨m, hslot, hle, hfree, hadd⟩ := add_of_isOk ⟨li.fd, k⟩ hqd hdup
  have hne : m ≠ li.fd := by
    rintro rfl
    rw [hqd] at hfree
    cases hfree
  refine ⟨m, hslot, toInt_lt_of_le_of_ne hle hne, ?_, ?_⟩
  · simpa [hq, openFd, hne] using hfree
  · simp only [listenWith, inherit, htake, hadd, if_true]
    rfl

/-- A new socket is made: a number larger than its own is entered. -/
theorem listenWith_creates (hfind : p.inheritedFds.find? (fun li => li.sockInfo == k) = none)
    (hdup : p.dupsSucceed k (.created fd file info) = true) :
    ∃ m, m ∈ slots p.limit ∧ fd.toInt < m.toInt ∧ p.table m = none ∧
      p.listenWith k (.created fd file info) true = some (.ok (.created, fd),
        { (p.openFd fd ⟨file, true⟩).openFd m ⟨file, true⟩ with
          usedFds := p.usedFds ++ [⟨m, info⟩] }) := by
  have htake : p.take k = some (none, p) := by
    simp only [take, hfind]
  simp only [dupsSucceed, htake] at hdup
  have hd : (p.openFd fd ⟨file, true⟩).table fd = some ⟨file, true⟩ := by simp [openFd]
  obtain ⟨m, hslot, hle, hfree, hadd⟩ := add_of_isOk ⟨fd, info⟩ hd hdup
  have hne : m ≠ fd := by
    rintro rfl
    rw [hd] at hfree
    cases hfree
  refine ⟨m, hslot, toInt_lt_of_le_of_ne hle hne, ?_, ?_⟩
  · simpa [openFd, hne] using hfree
  · simp only [listenWith, inherit, htake, hadd]
    rfl

end Proc

/-! ## The numbers grow -/

/-- Where a process of generation `n` stands when it has claimed `m` of its `k` sockets,
with no other descriptors, all sockets being for one address: the numbers it inherited
are at least `n` and those it has registered are larger. -/
structure Progress (k B L n m : ℕ) (p : Proc) (s : Life) : Prop where
  chain : Chain k B L n p
  wf : p.WF
  reach : (life p).ReachableVia (Life.Economical n k B) s
  limit : s.proc.limit = L
  inherited : s.proc.inheritedFds.length = if n = 0 then 0 else k - m
  used : s.proc.usedFds.length = m
  handed : s.handed.length = m
  key : ∀ li ∈ s.proc.inheritedFds ++ s.proc.usedFds, li.sockInfo = .tcp loopback
  low : ∀ li ∈ s.proc.inheritedFds, (n : ℤ) ≤ li.fd.toInt
  high : ∀ li ∈ s.proc.usedFds, (n : ℤ) < li.fd.toInt ∧ li.fd ∈ slots L
  opened : ∀ fd, (s.proc.table fd).isSome → fd ∈ s.proc.registered ∨ fd ∈ s.handed
  flags : ∀ fd d, s.proc.table fd = some d →
    d.cloexec = true ∨ fd ∈ s.proc.inheritedFds.map ListenerInfo.fd

namespace Progress

variable {k B L n m : ℕ} {p : Proc} {s : Life}

theorem othersAtMost (h : Progress k B L n m p s) : s.OthersAtMost B := by
  refine ⟨[], Nat.zero_le B, fun fd hfd => ?_⟩
  rcases h.opened fd hfd with hreg | hhand
  · exact .inl hreg
  · exact .inr (.inl hhand)

/-- A first process has room for one more socket. -/
theorem exists_lowest (h : Progress k B L 0 m p s) (hL : L ≤ 2 ^ 31) (hm : 2 * m < L) :
    ∃ fd, s.proc.table.lowestFree (slots s.proc.limit) 0 = some fd := by
  have hinh : s.proc.inheritedFds = [] := List.length_eq_zero_iff.mp h.inherited
  have hlen : (s.proc.registered ++ s.handed).length < (slots L).length := by
    rw [List.length_append, Proc.registered, hinh, List.nil_append, List.length_map, h.used,
      h.handed, slots, List.length_map, List.length_range]
    omega
  obtain ⟨fd, hfd, hfree⟩ := DescriptorTable.exists_free (slots_nodup hL) hlen fun fd hopen =>
    List.mem_append.mpr (h.opened fd hopen)
  rw [h.limit]
  refine DescriptorTable.exists_lowestFree hfd ?_ hfree
  rw [Int32.le_iff_toInt_le]
  exact nonneg_of_mem_slots hL hfd

/-- **One socket more**: the number `fd` is handed out, made or claimed, and a larger one,
`new`, is entered among those in use. -/
theorem advance (h : Progress k B L n m p s) {fd new : RawFd} {file₁ file₂ : ℕ}
    {rest : List ListenerInfo} {log : List (SockInfo × Ledger.Answer (Option ℕ))}
    (hsub : ∀ li ∈ rest, li ∈ s.proc.inheritedFds)
    (hcover : ∀ li ∈ s.proc.inheritedFds, li ∈ rest ∨ li.fd = fd)
    (hlen : rest.length = if n = 0 then 0 else k - (m + 1))
    (hlow : (n : ℤ) ≤ fd.toInt) (hlt : fd.toInt < new.toInt) (hnew : new ∈ slots s.proc.limit)
    (hreach : (life p).ReachableVia (Life.Economical n k B)
      ⟨{ (s.proc.openFd fd ⟨file₁, true⟩).openFd new ⟨file₂, true⟩ with
        inheritedFds := rest
        usedFds := s.proc.usedFds ++ [⟨new, .tcp loopback⟩] },
      s.ready, s.snapshot, s.handed ++ [fd], log⟩) :
    ∃ s', Progress k B L n (m + 1) p s' := by
  refine ⟨_, h.chain, h.wf, hreach, h.limit, hlen, by simp [h.used], by simp [h.handed],
    ?_, fun li hli => h.low li (hsub li hli), ?_, ?_, ?_⟩
  · intro li hli
    rcases List.mem_append.mp hli with hli | hli
    · exact h.key li (List.mem_append_left _ (hsub li hli))
    · rcases List.mem_append.mp hli with hli | hli
      · exact h.key li (List.mem_append_right _ hli)
      · rw [List.mem_singleton.mp hli]
  · intro li hli
    rcases List.mem_append.mp hli with hli | hli
    · exact h.high li hli
    · rw [List.mem_singleton.mp hli]
      exact ⟨lt_of_le_of_lt hlow hlt, h.limit ▸ hnew⟩
  · intro fd' hopen
    rcases Proc.isSome_openFd_openFd hopen with rfl | rfl | hold
    · exact .inl (by simp [Proc.registered])
    · exact .inr (by simp)
    · rcases h.opened fd' hold with hreg | hhand
      · obtain ⟨li, hli, rfl⟩ := List.mem_map.mp hreg
        rcases List.mem_append.mp hli with hli | hli
        -- an unclaimed number stays unclaimed or is the one handed out
        · rcases hcover li hli with hrest | rfl
          · exact .inl (List.mem_map_of_mem (List.mem_append_left _ hrest))
          · exact .inr (by simp)
        · exact .inl (List.mem_map_of_mem
            (List.mem_append_right _ (List.mem_append_left _ hli)))
      · exact .inr (List.mem_append_left _ hhand)
  · intro fd' d hd
    rcases Proc.flag_openFd_openFd hd with hflag | ⟨hne, hold⟩
    · exact .inl hflag
    · refine (h.flags fd' d hold).imp_right fun hmem => ?_
      obtain ⟨li, hli, rfl⟩ := List.mem_map.mp hmem
      rcases hcover li hli with hrest | hfd
      · exact List.mem_map_of_mem hrest
      · exact absurd hfd hne

/-- The first process makes one more socket. -/
theorem create (h : Progress k B L 0 m p s) (hm : m < k) (hL : L ≤ 2 ^ 31) (hroom : 2 * k ≤ L)
    (hdup : EveryDupSucceeds k B L 0) : ∃ s', Progress k B L 0 (m + 1) p s' := by
  obtain ⟨fd, hlow⟩ := h.exists_lowest hL (by omega)
  obtain ⟨hslot, -, hfree⟩ := DescriptorTable.lowestFree_spec hlow
  have hinh : s.proc.inheritedFds = [] := List.length_eq_zero_iff.mp h.inherited
  have hsound := Life.sound_of_reachable h.wf h.reach
  let r : Request := .tcp loopback (.created fd 0 loopback)
  have hev : s.Economical 0 k B (.listen r) :=
    ⟨h.othersAtMost, by rw [h.handed]; exact hm, fd, 0, rfl, hlow⟩
  obtain ⟨new, hnew, hlt, -, hlisten⟩ := Proc.listenWith_creates
    (k := .tcp loopback) (by rw [hinh]; rfl) (hdup p s r h.chain h.reach hev)
  have havoids : r.creation.avoids s.proc.registered = true :=
    decide_eq_true fun hmem => hsound.wf.ne_of_free hfree hmem rfl
  exact h.advance (fun _ => id) (fun _ => .inl) h.inherited
    (nonneg_of_mem_slots (h.limit ▸ hL) hslot) hlt hnew
    (.step h.reach hev (Life.step_listen havoids hlisten))

/-- A later process claims one more socket. -/
theorem claim (h : Progress k B L n m p s) (hn : n ≠ 0) (hm : m < k)
    (hdup : EveryDupSucceeds k B L n) : ∃ s', Progress k B L n (m + 1) p s' := by
  have hlen := h.inherited
  rw [if_neg hn] at hlen
  obtain ⟨li, rest, hinh⟩ := List.exists_cons_of_length_pos (by omega :
    0 < s.proc.inheritedFds.length)
  have hli : li ∈ s.proc.inheritedFds := hinh ▸ List.mem_cons_self
  have hkey : li.sockInfo = .tcp loopback := h.key li (List.mem_append_left _ hli)
  have hbeq : (li.sockInfo == .tcp loopback) = true := by rw [hkey]; exact BEq.refl _
  have hsound := Life.sound_of_reachable h.wf h.reach
  obtain ⟨d, hd⟩ := Option.isSome_iff_exists.mp (hsound.wf.isOpen li.fd
    (List.mem_map_of_mem (List.mem_append_left _ hli)))
  let r : Request := .tcp loopback (.failed "already bound")
  have hev : s.Economical n k B (.listen r) := by
    refine ⟨h.othersAtMost, by rw [h.handed]; exact hm, ?_⟩
    rw [if_neg hn, List.any_eq_true]
    exact ⟨li, hli, hbeq⟩
  have hfind : s.proc.inheritedFds.find? (fun li => li.sockInfo == .tcp loopback) = some li := by
    simp [hinh, hbeq]
  have herase : s.proc.inheritedFds.eraseP (fun li => li.sockInfo == .tcp loopback) = rest := by
    simp [hinh, hbeq]
  obtain ⟨new, hnew, hlt, -, hlisten⟩ := Proc.listenWith_claims hfind hd
    (hdup p s r h.chain h.reach hev)
  rw [herase] at hlisten
  refine h.advance ?_ ?_ ?_ (h.low li hli) hlt hnew
    (.step h.reach hev (Life.step_listen (r := r) rfl hlisten))
  · exact fun li' hli' => hinh ▸ List.mem_cons_of_mem _ hli'
  · intro li' hli'
    rw [hinh, List.mem_cons] at hli'
    exact hli'.symm.imp_right fun heq => congrArg ListenerInfo.fd heq
  · rw [hinh, List.length_cons] at hlen
    rw [if_neg hn]
    omega

/-- One more request, in any generation. -/
theorem request (h : Progress k B L n m p s) (hm : m < k) (hL : L ≤ 2 ^ 31) (hroom : 2 * k ≤ L)
    (hdup : EveryDupSucceeds k B L n) : ∃ s', Progress k B L n (m + 1) p s' := by
  rcases Nat.eq_zero_or_pos n with rfl | hn
  · exact h.create hm hL hroom hdup
  · exact h.claim (Nat.pos_iff_ne_zero.mp hn) hm hdup

/-- All requests, in any generation. -/
theorem requests (h : Progress k B L n 0 p s) (hL : L ≤ 2 ^ 31) (hroom : 2 * k ≤ L)
    (hdup : EveryDupSucceeds k B L n) (hm : m ≤ k) : ∃ s', Progress k B L n m p s' := by
  induction m with
  | zero => exact ⟨s, h⟩
  | succ m ih =>
    obtain ⟨s', h'⟩ := ih (by omega)
    exact h'.request (by omega) hL hroom hdup

end Progress

/-! ## The next process -/

/-- `pre_exec` does not panic on open numbers. -/
theorem Table.preExec_isSome {t : Table} {fds : List ListenerInfo}
    (h : ∀ li ∈ fds, (t li.fd).isSome) : (t.preExec fds).isSome := by
  induction fds generalizing t with
  | nil => rfl
  | cons li fds ih =>
    obtain ⟨d, hd⟩ := Option.isSome_iff_exists.mp (h li List.mem_cons_self)
    simp only [Table.preExec, Table.unsetCloexec, hd, Option.map_some, Option.bind_some]
    refine ih fun li' hli' => ?_
    by_cases hfd : li'.fd = li.fd
    · simp [hfd]
    · simpa [hfd] using h li' (List.mem_cons_of_mem _ hli')

/-- A list of listeners for one IPv4 address can be written. -/
theorem serializeInto_isSome {fds : List ListenerInfo} (hlen : fds.length < 2 ^ 32)
    (hkey : ∀ li ∈ fds, li.sockInfo = .tcp loopback) : (serializeInto fds).isSome := by
  have hall : (ByteCodec.writeAll ListenerInfo.write fds).isSome := by
    clear hlen
    induction fds with
    | nil => rfl
    | cons li fds ih =>
      obtain ⟨bs, hbs⟩ := Option.isSome_iff_exists.mp
        (ih fun li' hli' => hkey li' (List.mem_cons_of_mem _ hli'))
      simp [ByteCodec.writeAll, ListenerInfo.write, hkey li List.mem_cons_self, SockInfo.write,
        hbs]
  have hbound : fds.length < ByteCodec.lengthBound := by
    unfold ByteCodec.lengthBound
    omega
  rw [serializeInto, ByteCodec.writeSeq, if_pos hbound, Option.isSome_map]
  exact hall

/-- A process that has claimed all its sockets has nothing unclaimed left. -/
theorem Progress.inheritedFds_eq_nil {k B L n : ℕ} {p : Proc} {s : Life}
    (h : Progress k B L n k p s) : s.proc.inheritedFds = [] := by
  refine List.length_eq_zero_iff.mp ?_
  rw [h.inherited]
  split <;> omega

/-- A process that has claimed all its sockets can start a child, which has these sockets
open, under the same numbers, and nothing else: all other descriptors are close-on-exec. -/
theorem Progress.exists_child {k B L n : ℕ} {p : Proc} {s : Life} (h : Progress k B L n k p s)
    (hk : 2 * k ≤ L) (hL : L ≤ 2 ^ 31) :
    ∃ c, s.proc.spawnChild s.proc.usedFds = some c ∧ c.inheritedFds = s.proc.usedFds ∧
      ∀ fd, (c.table fd).isSome → fd ∈ s.proc.usedFds.map ListenerInfo.fd := by
  have hsound := Life.sound_of_reachable h.wf h.reach
  have hkeys : ∀ li ∈ s.proc.usedFds, li.sockInfo = .tcp loopback := fun li hli =>
    h.key li (List.mem_append_right _ hli)
  have hopen : ∀ li ∈ s.proc.usedFds, (s.proc.table li.fd).isSome := fun li hli =>
    hsound.wf.isOpen li.fd (List.mem_map_of_mem (List.mem_append_right _ hli))
  obtain ⟨t, ht⟩ := Option.isSome_iff_exists.mp (Table.preExec_isSome hopen)
  obtain ⟨bs, hbs⟩ := Option.isSome_iff_exists.mp
    (serializeInto_isSome (by rw [h.used]; omega) hkeys)
  have hspawn : ∃ c, s.proc.spawnChild s.proc.usedFds = some c ∧ c.table = t.exec := by
    simp [Proc.spawnChild, ht, hbs, deserializeFrom_serializeInto hbs]
  obtain ⟨c, hc, htable⟩ := hspawn
  have hwire : ∀ li ∈ s.proc.usedFds, li.onWire = id li := fun li hli => by
    rw [id, ListenerInfo.onWire_eq_iff, hkeys li hli]
    rfl
  refine ⟨c, hc, ?_, fun fd hfd => ?_⟩
  · rw [(Proc.spawnChild_eq_some hc).1, List.map_congr_left hwire, List.map_id]
  · by_contra hnot
    rw [htable, Table.exec, Table.preExec_apply ht, if_neg hnot] at hfd
    obtain ⟨d, hd⟩ := Option.isSome_iff_exists.mp hfd
    obtain ⟨hd, hflag⟩ := Option.filter_eq_some_iff.mp hd
    rcases h.flags fd d hd with hcl | hmem
    · simp [hcl] at hflag
    · rw [h.inheritedFds_eq_nil] at hmem
      cases hmem

/-- A process that has claimed all its sockets starts the next one. -/
theorem Progress.spawn {k B L n : ℕ} {p : Proc} {s : Life} (h : Progress k B L n k p s)
    (hk : 2 * k ≤ L) (hL : L ≤ 2 ^ 31) : ∃ c, Progress k B L (n + 1) 0 c (.init c) := by
  have hsnap : (life p).ReachableVia (Life.Economical n k B)
      { s with snapshot := s.proc.usedFds } :=
    .step h.reach (e := .snapshot) h.othersAtMost rfl
  obtain ⟨c, hc, hcinh, hcopen⟩ := h.exists_child hk hL
  obtain ⟨-, hcused, hclimit, -⟩ := Proc.spawnChild_eq_some hc
  have hfds : (c.inheritedFds ++ c.usedFds) = s.proc.usedFds := by
    rw [hcinh, hcused, List.append_nil]
  refine ⟨c, .next h.chain hsnap h.othersAtMost h.inheritedFds_eq_nil h.used rfl hc, ?_,
    .init rfl, hclimit.trans h.limit, ?_, ?_, rfl, ?_, ?_, ?_, ?_, ?_⟩
  · have hsound := Life.sound_of_reachable h.wf hsnap
    exact hsound.wf.spawnChild hsound.snapshotUsed hc
  · show c.inheritedFds.length = _
    rw [hcinh, h.used, if_neg (Nat.succ_ne_zero n), Nat.sub_zero]
  · show c.usedFds.length = 0
    rw [hcused, List.length_nil]
  · show ∀ li ∈ c.inheritedFds ++ c.usedFds, _
    rw [hfds]
    exact fun li hli => h.key li (List.mem_append_right _ hli)
  -- what the parent registered lies above its own generation, hence at or above the child's
  · show ∀ li ∈ c.inheritedFds, _
    rw [hcinh]
    intro li hli
    have hhigh := (h.high li hli).1
    push_cast
    omega
  · show ∀ li ∈ c.usedFds, _
    rw [hcused]
    exact fun li hli => nomatch hli
  · intro fd hfd
    refine .inl ?_
    show fd ∈ (c.inheritedFds ++ c.usedFds).map ListenerInfo.fd
    rw [hfds]
    exact hcopen fd hfd
  · intro fd d hd
    refine .inr ?_
    show fd ∈ c.inheritedFds.map ListenerInfo.fd
    rw [hcinh]
    have hd' : c.table fd = some d := hd
    exact hcopen fd (by rw [hd']; rfl)

/-- If no duplication fails in the first generations, there is a chain through them. -/
theorem exists_progress {k B L n : ℕ} (hL : L ≤ 2 ^ 31) (hroom : 2 * k ≤ L)
    (hdup : ∀ i < n, EveryDupSucceeds k B L i) : ∃ p, Progress k B L n 0 p (.init p) := by
  induction n with
  | zero =>
    refine ⟨⟨L, fun _ => none, [], []⟩, .first rfl rfl rfl, ?_, .init rfl, rfl, rfl, rfl, rfl,
      ?_, ?_, ?_, ?_, ?_⟩
    · exact ⟨List.nodup_nil, fun fd hfd => nomatch hfd⟩
    · exact fun li hli => nomatch hli
    · exact fun li hli => nomatch hli
    · exact fun li hli => nomatch hli
    · exact fun fd hfd => nomatch hfd
    · exact fun fd d hd => nomatch hd
  | succ n ih =>
    obtain ⟨p, h⟩ := ih fun i hi => hdup i (by omega)
    obtain ⟨s, hs⟩ := h.requests hL hroom (hdup n (Nat.lt_succ_self n)) le_rfl
    exact hs.spawn hroom hL

/-- With a socket to hand over, some duplication fails before generation `L`: in
generation `L - 1` the number of the entry would lie between `L - 1` and `L`. -/
theorem exists_dup_fails {k B L : ℕ} (hk : 0 < k) (hL : L ≤ 2 ^ 31) (hroom : 2 * k ≤ L) :
    ∃ n < L, ¬ EveryDupSucceeds k B L n := by
  -- otherwise the chain goes on up to generation `L - 1`
  by_contra hall
  have hdup : ∀ n < L, EveryDupSucceeds k B L n := fun n hn =>
    not_not.mp fun hfail => hall ⟨n, hn, hfail⟩
  obtain ⟨p, h⟩ := exists_progress hL hroom fun i (hi : i < L - 1) => hdup i (by omega)
  obtain ⟨s, hs⟩ := h.requests hL hroom (hdup (L - 1) (by omega)) (m := 1) hk
  obtain ⟨li, hli⟩ := List.length_eq_one_iff.mp hs.used
  obtain ⟨hhigh, hslot⟩ := hs.high li (hli ▸ List.mem_singleton_self li)
  have hlt := lt_of_mem_slots hL hslot
  omega

/-- **The number of upgrades is limited for every program that hands over a socket.**
However much room the limit leaves, every duplication in every generation of every
chain succeeds if and only if there is nothing to hand over. -/
theorem unlimited_generations_iff {k B L c : ℕ} (hL : L ≤ 2 ^ 31) (hroom : 2 * k + B + c ≤ L) :
    (∀ n, EveryDupSucceeds k B L n) ↔ k = 0 := by
  constructor
  · intro hdup
    by_contra hk
    obtain ⟨n, _, hfail⟩ := exists_dup_fails (k := k) (B := B) (by omega) hL (by omega)
    exact hfail (hdup n)
  · rintro rfl n p s r _ _ hev
    exact absurd hev.2.1 (Nat.not_lt_zero _)

/-- With nothing to hand over, no duplication ever fails. -/
theorem unlimited_generations_idle :
    2 * 0 + 3 + 16 ≤ 1024 ∧ ∀ n, EveryDupSucceeds 0 3 1024 n :=
  ⟨by decide, (unlimited_generations_iff (c := 16) (by decide) (by decide)).mpr rfl⟩

/-- One socket, no other descriptors and a limit of 8: the numbers of the entry are 1
in the first process, 2 in the next, and so on up to 7, which the process after that
cannot duplicate, although it has a single descriptor open. -/
theorem one_socket_exhausts_limit : 2 * 1 + 0 + 6 ≤ 8 ∧ ∃ n < 8, ¬ EveryDupSucceeds 1 0 8 n :=
  ⟨by decide, exists_dup_fails (by decide) (by decide) (by decide)⟩
