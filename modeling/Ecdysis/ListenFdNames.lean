/-
# The names systemd gives to its sockets

`SystemdSockets::new` goes through the names in `LISTEN_FDNAMES` and numbers them from 3
on.  A name that is special or that was there before is ignored, but its number is used up
and made close-on-exec like the others.

The loop invariant is that the map finds a name at its first place among the names read so
far (`position`).

* `readNames_eq_some` : the whole loop, from any point on;
* `listen_fdnames_read` : a name is found under 3 plus its first place, and only if it is
  not special; in particular when the text was made by joining names.
-/
import Ecdysis.SystemdSockets

namespace SystemdSockets

/-- `SystemdSockets::find`. -/
def find (map : SystemdSockets) (name : String) : Except SystemdSocketError RawFd :=
  match map.lookup name with
  | some fd => .ok fd
  | none => .error (.socketNotFoundInParent name)

/-- Where a name should be found: at its first place, unless it is special. -/
def position (names : List String) (name : String) : Option ℕ :=
  if name ∈ specialSocketNames then none else names.idxOf? name

variable {map : SystemdSockets} {p q : Proc} {names pre : List String} {n name : String}
  {fd : RawFd} {i : ℕ}

theorem find_eq_ok_iff : map.find n = .ok fd ↔ map.lookup n = some fd := by
  unfold find
  split
  · rename_i fd' hfd'
    simp [hfd']
  · rename_i hnone
    simp [hnone]

theorem find_of_not_ok (h : ∀ fd, map.find n ≠ .ok fd) :
    map.find n = .error (.socketNotFoundInParent n) := by
  cases hlookup : map.lookup n with
  | some fd => exact absurd (find_eq_ok_iff.mpr hlookup) (h fd)
  | none => simp only [find, hlookup]

/-- The lookup of `systemd_sock_of_proto` is `find`. -/
theorem systemdSockOfProto_eq_find {s : Systemd} (report : Report) (c : SystemdCall)
    (hfirst : s.child = false) (hmap : s.sockets = some map) :
    s.systemdSockOfProto report c = some (match map.find c.name with
      | .error e => (.error e, s)
      | .ok fd => s.sockOfNumber report c fd) := by
  simp only [Systemd.systemdSockOfProto, hfirst, hmap, find]
  cases map.lookup c.name with
  | none => rfl
  | some fd => rfl

/-! ## Places and numbers -/

theorem position_eq_some_iff :
    position names n = some i ↔
      n ∉ specialSocketNames ∧ names[i]? = some n ∧ ∀ j < i, names[j]? ≠ some n := by
  unfold position
  split
  · rename_i hspecial
    simp [hspecial]
  · rename_i hplain
    rw [List.idxOf?_eq_some_iff]
    constructor
    · rintro ⟨hi, hn, hfirst⟩
      refine ⟨hplain, by rw [List.getElem?_eq_getElem hi, hn], fun j hj hnj => ?_⟩
      obtain ⟨hlt, heq⟩ := List.getElem?_eq_some_iff.mp hnj
      exact hfirst j hj heq
    · rintro ⟨-, hn, hfirst⟩
      obtain ⟨hi, heq⟩ := List.getElem?_eq_some_iff.mp hn
      refine ⟨hi, heq, fun j hj hnj => hfirst j hj ?_⟩
      rw [List.getElem?_eq_getElem (hj.trans hi), hnj]

/-- A further name is found at the end, if it is not special and not there before. -/
theorem position_append_singleton (pre : List String) (name n : String) :
    position (pre ++ [name]) n = (position pre n).or
      (if n = name ∧ n ∉ specialSocketNames then some pre.length else none) := by
  unfold position
  split
  · rename_i hspecial
    simp [hspecial]
  · rename_i hplain
    simp only [List.idxOf?, List.findIdx?_append, List.findIdx?_singleton, hplain]
    by_cases hn : name = n
    · simp [hn]
    · simp [hn, Ne.symm hn]

/-- **One round of the loop** keeps the invariant: the map finds each name at its place. -/
theorem lookup_enter_eq (hmap : ∀ n, map.lookup n = (position pre n).map number)
    (name n : String) :
    (map.enter name (number pre.length)).lookup n
      = (position (pre ++ [name]) n).map number := by
  rw [position_append_singleton]
  unfold enter
  split
  · -- a special name is ignored
    rename_i hspecial
    have hnot : ¬(n = name ∧ n ∉ specialSocketNames) := by
      rintro ⟨rfl, hplain⟩
      exact hplain hspecial
    rw [if_neg hnot, Option.or_none, hmap]
  · rename_i hplain
    split
    · -- a name that is there already is ignored as well
      rename_i hthere
      rw [hmap, Option.isSome_map] at hthere
      rw [hmap]
      by_cases hn : n = name
      · subst hn
        obtain ⟨i, hi⟩ := Option.isSome_iff_exists.mp hthere
        rw [hi]
        rfl
      · rw [if_neg fun h => hn h.1, Option.or_none]
    · rename_i hnew
      rw [List.lookup_append, hmap]
      by_cases hn : n = name
      · subst hn
        have hnone : position pre n = none := by simpa [hmap] using hnew
        simp [hnone, hplain]
      · have hne : (n == name) = false := beq_false_of_ne hn
        simp [List.lookup, hne, hn]

/-- A number in the range of `i32` is the one the loop counts to. -/
theorem number_eq_of_toInt (h : fd.toInt = 3 + i) : number i = fd := by
  rw [← Int32.ofInt_toInt fd, h, Int32.ofInt_add]
  rfl

/-- The numbers from the `i`-th on, for `k` names. -/
def numbers (i k : ℕ) : List RawFd := (List.range' i k).map number

/-- **The whole loop**, when the numbers it counts to are open: the map finds every name at
its place, and these numbers become close-on-exec. -/
theorem readNames_eq_some (p : Proc) (map : SystemdSockets) (pre names : List String)
    (hmap : ∀ n, map.lookup n = (position pre n).map number)
    (hopen : ∀ fd ∈ numbers pre.length names.length, (p.table fd).isSome) :
    ∃ map' q, readNames p map pre.length names = some (map', q) ∧
      (∀ n, map'.lookup n = (position (pre ++ names) n).map number) ∧
      q = { p with table := q.table } ∧
      ∀ fd, q.table fd = if fd ∈ numbers pre.length names.length
        then (p.table fd).map fun d => { d with cloexec := true } else p.table fd := by
  induction names generalizing p map pre with
  | nil => exact ⟨map, p, rfl, by simpa using hmap, rfl, by simp [numbers]⟩
  | cons name names ih =>
    have hnumbers : numbers pre.length (name :: names).length
        = number pre.length :: numbers (pre ++ [name]).length names.length := by
      simp [numbers, List.range'_succ]
    rw [hnumbers] at hopen ⊢
    obtain ⟨d, hd⟩ := Option.isSome_iff_exists.mp (hopen _ List.mem_cons_self)
    have hset : p.setCloexec (number pre.length)
        = some (p.openFd (number pre.length) { d with cloexec := true }) := by
      simp [Proc.setCloexec, hd]
    have htable' : ∀ fd, (p.openFd (number pre.length) { d with cloexec := true }).table fd
        = if fd = number pre.length then some { d with cloexec := true } else p.table fd :=
      fun fd => Function.update_apply ..
    have hopen' : ∀ fd ∈ numbers (pre ++ [name]).length names.length,
        ((p.openFd (number pre.length) { d with cloexec := true }).table fd).isSome := by
      intro fd hfd
      rw [htable']
      split
      · rfl
      · exact hopen fd (List.mem_cons_of_mem _ hfd)
    obtain ⟨map', q, hread, hlookup, hq, htable⟩ :=
      ih _ _ (pre ++ [name]) (lookup_enter_eq hmap name) hopen'
    refine ⟨map', q, ?_, by simpa using hlookup, hq, fun fd => ?_⟩
    · rw [readNames, hset, Option.bind_some]
      simpa using hread
    · rw [htable fd, htable' fd]
      by_cases hfd : fd = number pre.length
      · subst hfd
        simp [hd]
      · simp [hfd]

/-! ## Reading the text -/

/-- The names have been read from `p` on, which made `map` and left `q`: a name is found
under 3 plus its first place, unless it is special; no two are found under one number; and
the number of every name, ignored or not, has become close-on-exec. -/
structure Reads (names : List String) (p : Proc) (map : SystemdSockets) (q : Proc) : Prop where
  found : ∀ n (fd : RawFd), map.find n = .ok fd ↔ n ∉ specialSocketNames ∧
    ∃ i : ℕ, fd.toInt = 3 + i ∧ names[i]? = some n ∧ ∀ j < i, names[j]? ≠ some n
  notFound : ∀ n, (∀ fd, map.find n ≠ .ok fd) → map.find n = .error (.socketNotFoundInParent n)
  distinct : ∀ n n' fd, map.find n = .ok fd → map.find n' = .ok fd → n = n'
  shielded : ∀ i < names.length, ∃ (fd : RawFd) (d : Desc), fd.toInt = 3 + i ∧
    p.table fd = some d ∧ q.table fd = some { d with cloexec := true }
  unchanged : ∀ fd : RawFd, (∀ i < names.length, fd.toInt ≠ 3 + i) → q.table fd = p.table fd
  registry : q.limit = p.limit ∧ q.inheritedFds = p.inheritedFds ∧ q.usedFds = p.usedFds

/-- The numbers of all names are open. -/
def Passed (names : List String) (p : Proc) : Prop :=
  ∀ i < names.length, ∃ fd : RawFd, fd.toInt = 3 + i ∧ (p.table fd).isSome

theorem Passed.toInt_number (h : Passed names p) (hi : i < names.length) :
    (number i).toInt = 3 + i := by
  obtain ⟨fd, hfd, -⟩ := h i hi
  rw [number_eq_of_toInt hfd, hfd]

theorem Passed.mem_numbers_iff (h : Passed names p) :
    fd ∈ numbers 0 names.length ↔ ∃ i < names.length, fd.toInt = 3 + i := by
  simp only [numbers, List.mem_map, List.mem_range'_1, Nat.zero_le, Nat.zero_add, true_and]
  constructor
  · rintro ⟨i, hi, rfl⟩
    exact ⟨i, hi, h.toInt_number hi⟩
  · rintro ⟨i, hi, hfd⟩
    exact ⟨i, hi, number_eq_of_toInt hfd⟩

theorem Passed.isSome (h : Passed names p) (hfd : fd ∈ numbers 0 names.length) :
    (p.table fd).isSome := by
  obtain ⟨i, hi, hfd⟩ := h.mem_numbers_iff.mp hfd
  obtain ⟨fd', hfd', hopen⟩ := h i hi
  rwa [Int32.toInt_inj.mp (hfd.trans hfd'.symm)]

/-- **The loop reads the names** whose numbers are open. -/
theorem Passed.reads (h : Passed names p) :
    ∃ map q, readNames p [] 0 names = some (map, q) ∧ Reads names p map q := by
  obtain ⟨map, q, hread, hlookup, hq, htable⟩ :=
    readNames_eq_some p [] [] names (by simp [position]) fun fd hfd => h.isSome hfd
  rw [List.length_nil] at htable
  have hfound : ∀ n (fd : RawFd), map.find n = .ok fd ↔ n ∉ specialSocketNames ∧
      ∃ i : ℕ, fd.toInt = 3 + i ∧ names[i]? = some n ∧ ∀ j < i, names[j]? ≠ some n := by
    intro n fd
    rw [find_eq_ok_iff, hlookup, Option.map_eq_some_iff, List.nil_append]
    constructor
    · rintro ⟨i, hi, rfl⟩
      obtain ⟨hplain, hn, hfirst⟩ := position_eq_some_iff.mp hi
      exact ⟨hplain, i, h.toInt_number (List.getElem?_eq_some_iff.mp hn).1, hn, hfirst⟩
    · rintro ⟨hplain, i, hfd, hn, hfirst⟩
      exact ⟨i, position_eq_some_iff.mpr ⟨hplain, hn, hfirst⟩, number_eq_of_toInt hfd⟩
  refine ⟨map, q, hread, hfound, fun n => find_of_not_ok, ?_, fun i hi => ?_, fun fd hfd => ?_, ?_⟩
  · intro n n' fd hn hn'
    obtain ⟨-, i, hi, hin, -⟩ := (hfound n fd).mp hn
    obtain ⟨-, i', hi', hin', -⟩ := (hfound n' fd).mp hn'
    have hsame : i = i' := by omega
    subst hsame
    exact Option.some.inj (hin.symm.trans hin')
  · obtain ⟨fd, hfd, hopen⟩ := h i hi
    obtain ⟨d, hd⟩ := Option.isSome_iff_exists.mp hopen
    refine ⟨fd, d, hfd, hd, ?_⟩
    rw [htable fd, if_pos (h.mem_numbers_iff.mpr ⟨i, hi, hfd⟩), hd, Option.map_some]
  · rw [htable fd, if_neg]
    intro hmem
    obtain ⟨i, hi, heq⟩ := h.mem_numbers_iff.mp hmem
    exact hfd i hi heq
  · rw [hq]
    exact ⟨rfl, rfl, rfl⟩

end SystemdSockets

/-- Names without a colon are read back from the text that joins them. -/
theorem Environment.names_intercalate {env : Environment} {l : List String}
    (htext : env.listenFdNames = .ok (":".intercalate l)) (hl : l ≠ [])
    (hcolon : ∀ n ∈ l, ':' ∉ n.toList) : env.names = l := by
  have hsplit : (":".intercalate l).toList.splitOn ':' = l.map String.toList := by
    rw [String.toList_intercalate]
    refine List.splitOn_intercalate ':' ?_ (by simpa using hl)
    intro cs hcs
    obtain ⟨n, hn, rfl⟩ := List.mem_map.mp hcs
    exact hcolon n hn
  simp only [Environment.names, htext, hsplit, List.map_map]
  simp [Function.comp_def]

/-- **`LISTEN_FDNAMES` is read correctly**, whatever text it is, when it is for this process
and the numbers of its names are open.  In particular, names without a colon that were joined
to a text are found at their places. -/
theorem listen_fdnames_read (p : Proc) (env : Environment) (text : String)
    (hpid : env.listenPid = .ok env.pid) (htext : env.listenFdNames = .ok text)
    (hopen : SystemdSockets.Passed env.names p) :
    ∃ map q, SystemdSockets.new p env = some (.ok map, q) ∧
      SystemdSockets.Reads env.names p map q ∧
      ∀ l, l ≠ [] → (∀ n ∈ l, ':' ∉ n.toList) → text = ":".intercalate l →
        SystemdSockets.Reads l p map q := by
  obtain ⟨map, q, hread, hreads⟩ := hopen.reads
  refine ⟨map, q, ?_, hreads, fun l hl hcolon hjoin => ?_⟩
  · simp [SystemdSockets.new, hpid, htext, hread]
  · subst hjoin
    rwa [Environment.names_intercalate htext hl hcolon] at hreads

/-- A special and a repeated name use up their numbers. -/
theorem listen_fdnames_read_four :
    let l := ["api", "unknown", "api", "web"]
    let p : Proc := ⟨16, fun fd => if 3 ≤ fd ∧ fd < 7 then some ⟨0, false⟩ else none, [], []⟩
    ∃ map q, SystemdSockets.new p ⟨1, .ok 1, .ok (":".intercalate l)⟩ = some (.ok map, q) ∧
      map.find "web" = .ok 6 ∧ SystemdSockets.Reads l p map q := by
  intro l p
  have hcolon : ∀ n ∈ l, ':' ∉ n.toList := by decide
  have hnames : Environment.names ⟨1, .ok 1, .ok (":".intercalate l)⟩ = l :=
    Environment.names_intercalate rfl (by decide) hcolon
  have hpassed : SystemdSockets.Passed l p := by
    intro i hi
    have hi : i = 0 ∨ i = 1 ∨ i = 2 ∨ i = 3 := by
      simp only [l, List.length_cons, List.length_nil] at hi
      omega
    rcases hi with rfl | rfl | rfl | rfl
    · exact ⟨3, by decide, by decide⟩
    · exact ⟨4, by decide, by decide⟩
    · exact ⟨5, by decide, by decide⟩
    · exact ⟨6, by decide, by decide⟩
  obtain ⟨map, q, hnew, -, hreads⟩ := listen_fdnames_read p _ _ rfl rfl (hnames.symm ▸ hpassed)
  have hl := hreads l (by decide) hcolon rfl
  refine ⟨map, q, hnew, (hl.found "web" 6).mpr ⟨by decide, 3, by decide, rfl, by decide⟩, hl⟩
