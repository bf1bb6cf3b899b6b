/-
# The registry as a ledger of open files

A registry whose numbers are pairwise distinct and open (`Proc.WF`) stands for a ledger
of open files: the number of an entry does not matter, only the description it is
under and the file it refers to (`Proc.ledger`).  This module shows that the operations
of the registry keep `WF`, whatever fails, and that they do to the ledger what their
names say; with no failing duplication, a listening method is a request of the ledger
(`ledger_listenWith`) and `unix_datagram_pair` an exchange.
-/
import Ecdysis.Ledger
import Ecdysis.Registry

open FirstMatch

/-- The new socket as the ledger sees it. -/
def Creation.fresh : Creation SockInfo → Option (SockInfo × Option ℕ)
  | .failed _ => none
  | .created _ file info => some (info, some file)

namespace Proc

/-- The registry holds pairwise distinct open numbers. -/
structure WF (p : Proc) : Prop where
  nodup : p.registered.Nodup
  isOpen : ∀ fd ∈ p.registered, (p.table fd).isSome

/-- An entry without its number: its description and the file it refers to. -/
def entry (p : Proc) (li : ListenerInfo) : SockInfo × Option ℕ := (li.sockInfo, p.fileOf li.fd)

/-- The ledger a registry stands for. -/
def ledger (p : Proc) : Ledger SockInfo (Option ℕ) :=
  ⟨p.inheritedFds.map p.entry, p.usedFds.map p.entry⟩

variable {p q : Proc} {fd newFd : RawFd} {k : SockInfo} {item : ListenerInfo} {d : Desc}

/-! ## Well-formedness -/

@[simp] theorem registered_openFd : (p.openFd fd d).registered = p.registered := rfl

@[simp] theorem registered_closeFdQuiet : (p.closeFdQuiet fd).registered = p.registered := rfl

/-- Entries may leave the registry, and numbers outside it may do as they like. -/
theorem WF.shrink (hp : p.WF) (hsub : q.registered.Sublist p.registered)
    (htable : ∀ fd ∈ q.registered, (p.table fd).isSome → (q.table fd).isSome) : q.WF :=
  ⟨hp.nodup.sublist hsub, fun fd hfd => htable fd hfd (hp.isOpen fd (hsub.subset hfd))⟩

theorem WF.ne_of_free (hp : p.WF) (hfree : p.table newFd = none) (hfd : fd ∈ p.registered) :
    fd ≠ newFd := by
  rintro rfl
  have hopen := hp.isOpen fd hfd
  rw [hfree] at hopen
  cases hopen

/-- Opening a number. -/
theorem WF.openFd (hp : p.WF) (fd : RawFd) (d : Desc) : (p.openFd fd d).WF := by
  refine hp.shrink (List.Sublist.refl _) fun fd' _ hopen => ?_
  by_cases h : fd' = fd
  · subst h
    simp [Proc.openFd]
  · simpa [Proc.openFd, h] using hopen

/-- Closing a number that is not the registry's. -/
theorem WF.closeFdQuiet (hp : p.WF) (hfd : fd ∉ p.registered) : (p.closeFdQuiet fd).WF := by
  refine hp.shrink (List.Sublist.refl _) fun fd' hfd' hopen => ?_
  have hne : fd' ≠ fd := by
    rintro rfl
    exact hfd hfd'
  simpa [Proc.closeFdQuiet, hne] using hopen

/-- `take` keeps the registry well-formed; what it returns is open and no longer the
registry's. -/
theorem WF.take (hp : p.WF) {r : Option RawFd} (h : p.take k = some (r, q)) :
    q.WF ∧ q.registered.Sublist p.registered ∧
      ∀ fd, r = some fd → fd ∉ q.registered ∧ (q.table fd).isSome := by
  rcases take_eq_some h with ⟨_, rfl, rfl⟩ | ⟨li, d, hfind, rfl, hd, rfl⟩
  · exact ⟨hp, List.Sublist.refl _, by rintro _ ⟨⟩⟩
  · have hsub : ((p.inheritedFds.eraseP (fun li => li.sockInfo == k) ++ p.usedFds).map
        ListenerInfo.fd).Sublist p.registered :=
      (List.Sublist.append_right List.eraseP_sublist _).map _
    refine ⟨?_, hsub, ?_⟩
    · exact (hp.openFd li.fd { d with cloexec := true }).shrink hsub fun _ _ h => h
    · rintro fd ⟨⟩
      have hperm := ((perm_cons_eraseP hfind).append_right p.usedFds).map ListenerInfo.fd
      have hnodup := hperm.nodup_iff.mp hp.nodup
      exact ⟨(List.nodup_cons.mp hnodup).1, by simp [Proc.openFd]⟩

/-- `add` keeps the registry well-formed; the number added was free before. -/
theorem WF.add (hp : p.WF) (h : p.add item = .ok q) :
    q.WF ∧ ∀ fd, fd ∉ p.registered → (p.table fd).isSome → fd ∉ q.registered := by
  obtain ⟨n, d, -, -, -, hfree, rfl⟩ := add_eq_ok h
  have hreg : registered { p.openFd n { d with cloexec := true } with
      usedFds := p.usedFds ++ [⟨n, item.sockInfo⟩] } = p.registered ++ [n] := by
    simp [registered, Proc.openFd]
  refine ⟨⟨?_, ?_⟩, ?_⟩
  · rw [hreg]
    refine List.nodup_append.mpr ⟨hp.nodup, List.nodup_singleton n, ?_⟩
    rintro fd hfd _ hn
    obtain rfl := List.mem_singleton.mp hn
    exact hp.ne_of_free hfree hfd
  · intro fd hfd
    rw [hreg, List.mem_append, List.mem_singleton] at hfd
    rcases hfd with hfd | rfl
    · simpa [Proc.openFd, hp.ne_of_free hfree hfd] using hp.isOpen fd hfd
    · simp [Proc.openFd]
  · intro fd hfd hopen
    rw [hreg, List.mem_append, List.mem_singleton]
    rintro (hmem | rfl)
    · exact hfd hmem
    · rw [hfree] at hopen
      cases hopen

/-- `inherit` keeps the registry well-formed, and what it returns is not the
registry's. -/
theorem WF.inherit (hp : p.WF) {r : Option RawFd} (h : p.inherit k = some (r, q)) :
    q.WF ∧ (∀ fd, r = some fd → fd ∉ q.registered) ∧
      (r = none → q.registered.Sublist p.registered) := by
  rcases inherit_eq_some h with
    ⟨rfl, rfl, _⟩ | ⟨fd, q', htake, hadd, rfl⟩ | ⟨fd, e, htake, _, rfl⟩
  · exact ⟨hp, by rintro _ ⟨⟩, fun _ => List.Sublist.refl _⟩
  · obtain ⟨hq', -, hfd⟩ := hp.take htake
    obtain ⟨hq, hkeep⟩ := hq'.add hadd
    refine ⟨hq, ?_, by rintro ⟨⟩⟩
    rintro fd ⟨⟩
    exact hkeep fd (hfd fd rfl).1 (hfd fd rfl).2
  · obtain ⟨hq, hsub, -⟩ := hp.take htake
    exact ⟨hq, by rintro _ ⟨⟩, fun _ => hsub⟩

/-- **The listening methods keep the registry well-formed**, whatever fails, as long as
a new socket does not come under a number the registry holds. -/
theorem WF.listenWith (hp : p.WF) {c : Creation SockInfo} {adopt : Bool} {res : Listened}
    (hc : ∀ fd file info, c = .created fd file info → fd ∉ p.registered)
    (h : p.listenWith k c adopt = some (res, q)) : q.WF := by
  rcases listenWith_eq_some h with
    ⟨fd, q', hinh, ⟨_, _, rfl⟩ | ⟨_, _, rfl⟩⟩ |
    ⟨q', hinh, ⟨msg, _, _, rfl⟩ | ⟨fd, file, info, rfl, ⟨hadd, _⟩ | ⟨e, _, _, rfl⟩⟩⟩
  · exact (hp.inherit hinh).1
  · exact (hp.inherit hinh).1.closeFdQuiet ((hp.inherit hinh).2.1 fd rfl)
  · exact (hp.inherit hinh).1
  · exact (((hp.inherit hinh).1.openFd fd ⟨file, true⟩).add hadd).1
  · refine ((hp.inherit hinh).1.openFd fd ⟨file, true⟩).closeFdQuiet fun hmem => ?_
    exact hc fd file info rfl (((hp.inherit hinh).2.2 rfl).subset hmem)

/-- `unix_datagram_pair` keeps the registry well-formed. -/
theorem WF.unixDatagramPair (hp : p.WF) {name : String} {c : Pair}
    {res : Option RawFd × Except ListenError RawFd}
    (hc : ∀ toChild childs file file', c = .made toChild childs file file' →
      toChild ∉ p.registered ∧ childs ∉ p.registered)
    (h : p.unixDatagramPair name c = some (res, q)) : q.WF := by
  obtain ⟨r, q', htake, ⟨msg, _, _, rfl⟩ | ⟨toChild, childs, file, file', rfl, hor⟩⟩ :=
    unixDatagramPair_eq_some h
  · exact (hp.take htake).1
  · obtain ⟨hq', hsub, -⟩ := hp.take htake
    obtain ⟨htoChild, hchilds⟩ := hc toChild childs file file' rfl
    have hq'' := (hq'.openFd toChild ⟨file, true⟩).openFd childs ⟨file', true⟩
    rcases hor with ⟨q₁, hadd, _, rfl⟩ | ⟨e, _, _, rfl⟩
    · obtain ⟨hq₁, hkeep⟩ := hq''.add hadd
      exact hq₁.closeFdQuiet (hkeep childs (fun hmem => hchilds (hsub.subset hmem))
        (by simp [Proc.openFd]))
    · refine (hq''.closeFdQuiet fun hmem => hchilds (hsub.subset hmem)).closeFdQuiet ?_
      exact fun hmem => htoChild (hsub.subset hmem)

/-- The socket methods do not panic: what `take` finds is open. -/
theorem WF.take_isSome (hp : p.WF) (k : SockInfo) : (p.take k).isSome := by
  unfold Proc.take
  split
  · rename_i li hli
    have hopen := hp.isOpen li.fd
      (List.mem_map_of_mem (List.mem_append_left _ (List.mem_of_find?_eq_some hli)))
    simpa [setCloexec] using hopen
  · rfl

theorem WF.inherit_isSome (hp : p.WF) (k : SockInfo) : (p.inherit k).isSome := by
  obtain ⟨⟨x, q⟩, htake⟩ := Option.isSome_iff_exists.mp (hp.take_isSome k)
  unfold Proc.inherit
  rw [htake]
  cases x with
  | none => rfl
  | some fd =>
    simp only
    split <;> rfl

theorem WF.listen_isSome (hp : p.WF) (r : Request) : (p.listen r).isSome := by
  obtain ⟨⟨y, q'⟩, hy⟩ := Option.isSome_iff_exists.mp (hp.inherit_isSome r.key)
  rw [listen_eq, Proc.listenWith, hy]
  cases y with
  | some fd => cases r.adopt <;> rfl
  | none =>
    cases r.creation with
    | failed msg => rfl
    | created fd file info =>
      simp only
      split <;> rfl

/-- Entries in use have other numbers than the unclaimed ones. -/
theorem WF.not_mem_inherited (hp : p.WF) (hfd : fd ∈ p.usedFds.map ListenerInfo.fd) :
    fd ∉ p.inheritedFds.map ListenerInfo.fd := by
  have hnodup := hp.nodup
  rw [registered, List.map_append] at hnodup
  exact fun hmem => List.disjoint_of_nodup_append hnodup hmem hfd

theorem closeInherited_table_of_not_mem (h : fd ∉ p.inheritedFds.map ListenerInfo.fd) :
    p.closeInherited.table fd = p.table fd := by
  show p.table.closeAll _ fd = _
  rw [DescriptorTable.closeAll_apply, if_neg h]

/-- `ready` closes and forgets the unclaimed entries. -/
theorem WF.closeInherited (hp : p.WF) : p.closeInherited.WF := by
  have hsub : (p.usedFds.map ListenerInfo.fd).Sublist p.registered := by
    rw [registered, List.map_append]
    exact List.sublist_append_right _ _
  refine hp.shrink hsub fun fd hfd hopen => ?_
  rw [closeInherited_table_of_not_mem (hp.not_mem_inherited hfd)]
  exact hopen

/-! ## What the registry keeps -/

/-- A number other than the one opened refers to what it referred to. -/
theorem fileOf_openFd_of_ne {fd' : RawFd} (h : fd' ≠ fd) :
    (p.openFd fd d).fileOf fd' = p.fileOf fd' := by
  simp [fileOf, openFd, h]

theorem fileOf_closeFdQuiet_of_ne {fd' : RawFd} (h : fd' ≠ fd) :
    (p.closeFdQuiet fd).fileOf fd' = p.fileOf fd' := by
  simp [fileOf, closeFdQuiet, h]

@[simp] theorem fileOf_openFd_self : (p.openFd fd d).fileOf fd = some d.file := by
  simp [fileOf, openFd]

/-- Setting a flag changes no file. -/
theorem fileOf_setFlag (h : p.table fd = some d) (b : Bool) (fd' : RawFd) :
    (p.openFd fd { d with cloexec := b }).fileOf fd' = p.fileOf fd' := by
  by_cases hfd : fd' = fd
  · subst hfd
    simp [fileOf, openFd, h]
  · exact fileOf_openFd_of_ne hfd

/-- From `p` to `q`, entries in use stay, with their files, and only entries that were
unclaimed before are unclaimed, with theirs. -/
structure Evolves (p q : Proc) : Prop where
  used : p.usedFds <+: q.usedFds
  usedFile : ∀ li ∈ p.usedFds, q.fileOf li.fd = p.fileOf li.fd
  inherited : ∀ li ∈ q.inheritedFds, li ∈ p.inheritedFds ∧ q.fileOf li.fd = p.fileOf li.fd

theorem Evolves.refl (p : Proc) : p.Evolves p :=
  ⟨List.prefix_refl _, fun _ _ => rfl, fun _ hli => ⟨hli, rfl⟩⟩

theorem Evolves.trans {r : Proc} (h : p.Evolves q) (h' : q.Evolves r) : p.Evolves r where
  used := h.used.trans h'.used
  usedFile := fun li hli => (h'.usedFile li (h.used.subset hli)).trans (h.usedFile li hli)
  inherited := fun li hli =>
    ⟨(h.inherited li (h'.inherited li hli).1).1,
      (h'.inherited li hli).2.trans (h.inherited li (h'.inherited li hli).1).2⟩

/-- Changes to numbers outside the registry. -/
theorem Evolves.of_fileOf (hinh : q.inheritedFds = p.inheritedFds) (hused : q.usedFds = p.usedFds)
    (hfile : ∀ fd ∈ p.registered, q.fileOf fd = p.fileOf fd) : p.Evolves q := by
  refine ⟨hused ▸ List.prefix_refl _, fun li hli => ?_, fun li hli => ?_⟩
  · exact hfile li.fd (List.mem_map_of_mem (List.mem_append_right _ hli))
  · rw [hinh] at hli
    exact ⟨hli, hfile li.fd (List.mem_map_of_mem (List.mem_append_left _ hli))⟩

theorem evolves_openFd (h : fd ∉ p.registered) : p.Evolves (p.openFd fd d) :=
  .of_fileOf rfl rfl fun _ hfd' => fileOf_openFd_of_ne fun heq => h (heq ▸ hfd')

theorem evolves_closeFdQuiet (h : fd ∉ p.registered) : p.Evolves (p.closeFdQuiet fd) := by
  refine .of_fileOf rfl rfl fun fd' hfd' => ?_
  have hne : fd' ≠ fd := fun heq => h (heq ▸ hfd')
  simp [fileOf, Proc.closeFdQuiet, hne]

theorem evolves_take {r : Option RawFd} (h : p.take k = some (r, q)) : p.Evolves q := by
  rcases take_eq_some h with ⟨_, _, rfl⟩ | ⟨li, d, _, _, hd, rfl⟩
  · exact .refl _
  · have hfile := fileOf_setFlag hd true
    refine ⟨List.prefix_refl _, fun li' _ => hfile li'.fd, fun li' hli' => ⟨?_, hfile li'.fd⟩⟩
    exact List.mem_of_mem_eraseP hli'

theorem WF.evolves_add (hp : p.WF) (h : p.add item = .ok q) : p.Evolves q := by
  obtain ⟨n, d, -, -, -, hfree, rfl⟩ := add_eq_ok h
  have hfile : ∀ li ∈ p.inheritedFds ++ p.usedFds,
      (p.openFd n { d with cloexec := true }).fileOf li.fd = p.fileOf li.fd := fun li hli =>
    fileOf_openFd_of_ne (hp.ne_of_free hfree (List.mem_map_of_mem hli))
  exact ⟨List.prefix_append _ _, fun li hli => hfile li (List.mem_append_right _ hli),
    fun li hli => ⟨hli, hfile li (List.mem_append_left _ hli)⟩⟩

theorem WF.evolves_inherit (hp : p.WF) {r : Option RawFd} (h : p.inherit k = some (r, q)) :
    p.Evolves q := by
  rcases inherit_eq_some h with
    ⟨_, rfl, _⟩ | ⟨fd, q', htake, hadd, _⟩ | ⟨fd, e, htake, _, _⟩
  · exact .refl _
  · exact (evolves_take htake).trans ((hp.take htake).1.evolves_add hadd)
  · exact evolves_take htake

/-- The listening methods only add to the registry, or claim from it, whatever fails. -/
theorem WF.evolves_listenWith (hp : p.WF) {c : Creation SockInfo} {adopt : Bool} {res : Listened}
    (hc : ∀ fd file info, c = .created fd file info → fd ∉ p.registered)
    (h : p.listenWith k c adopt = some (res, q)) : p.Evolves q := by
  rcases listenWith_eq_some h with
    ⟨fd, q', hinh, ⟨_, _, rfl⟩ | ⟨_, _, rfl⟩⟩ |
    ⟨q', hinh, ⟨msg, _, _, rfl⟩ | ⟨fd, file, info, rfl, hadd⟩⟩ <;>
  have hq' := hp.evolves_inherit hinh
  · exact hq'
  · exact hq'.trans (evolves_closeFdQuiet ((hp.inherit hinh).2.1 fd rfl))
  · exact hq'
  · have hfd : fd ∉ q'.registered := fun hmem =>
      hc fd file info rfl (((hp.inherit hinh).2.2 rfl).subset hmem)
    have hopen := hq'.trans (evolves_openFd (d := ⟨file, true⟩) hfd)
    rcases hadd with ⟨hadd, _⟩ | ⟨e, _, _, rfl⟩
    · exact hopen.trans (((hp.inherit hinh).1.openFd fd ⟨file, true⟩).evolves_add hadd)
    · exact hopen.trans (evolves_closeFdQuiet (by simpa using hfd))

/-- So does `unix_datagram_pair`. -/
theorem WF.evolves_unixDatagramPair (hp : p.WF) {name : String} {c : Pair}
    {res : Option RawFd × Except ListenError RawFd}
    (hc : ∀ toChild childs file file', c = .made toChild childs file file' →
      toChild ∉ p.registered ∧ childs ∉ p.registered)
    (h : p.unixDatagramPair name c = some (res, q)) : p.Evolves q := by
  obtain ⟨r, q', htake, hor⟩ := unixDatagramPair_eq_some h
  have hq' := evolves_take htake
  rcases hor with ⟨msg, _, _, rfl⟩ | ⟨toChild, childs, file, file', rfl, hor⟩
  · exact hq'
  -- neither end of the pair is the registry's, before or after the claim
  · obtain ⟨hwf, hsub, -⟩ := hp.take htake
    obtain ⟨htoChild, hchilds⟩ := hc toChild childs file file' rfl
    have htoChild' : toChild ∉ q'.registered := fun hmem => htoChild (hsub.subset hmem)
    have hchilds' : childs ∉ q'.registered := fun hmem => hchilds (hsub.subset hmem)
    have hchilds'' : childs ∉ (q'.openFd toChild ⟨file, true⟩).registered := hchilds'
    have hopen := (hq'.trans (evolves_openFd (d := ⟨file, true⟩) htoChild')).trans
      (evolves_openFd (d := ⟨file', true⟩) hchilds'')
    have hq'' := (hwf.openFd toChild ⟨file, true⟩).openFd childs ⟨file', true⟩
    rcases hor with ⟨q₁, hadd, _, rfl⟩ | ⟨e, _, _, rfl⟩
    · exact (hopen.trans (hq''.evolves_add hadd)).trans (evolves_closeFdQuiet
        ((hq''.add hadd).2 childs hchilds' (by simp [Proc.openFd])))
    · exact (hopen.trans (evolves_closeFdQuiet (by simpa using hchilds'))).trans
        (evolves_closeFdQuiet (by simpa using htoChild'))

theorem WF.evolves_closeInherited (hp : p.WF) : p.Evolves p.closeInherited := by
  refine ⟨List.prefix_refl _, fun li hli => ?_, fun li hli => nomatch hli⟩
  rw [fileOf, fileOf,
    closeInherited_table_of_not_mem (hp.not_mem_inherited (List.mem_map_of_mem hli))]

/-- Some entry in use refers to the file. -/
def Holds (p : Proc) (file : ℕ) : Prop := ∃ li ∈ p.usedFds, p.fileOf li.fd = some file

theorem Evolves.holds {file : ℕ} (h : p.Evolves q) (hfile : p.Holds file) : q.Holds file := by
  obtain ⟨li, hli, hfd⟩ := hfile
  exact ⟨li, h.used.subset hli, (h.usedFile li hli).trans hfd⟩

/-- What `add` registers refers to the file of the number given to it. -/
theorem holds_add (h : p.add item = .ok q) :
    ∃ file, p.fileOf item.fd = some file ∧ q.fileOf item.fd = some file ∧ q.Holds file := by
  obtain ⟨n, d, hd, -, -, hfree, rfl⟩ := add_eq_ok h
  have hne : item.fd ≠ n := by
    rintro rfl
    rw [hfree] at hd
    cases hd
  refine ⟨d.file, by simp [fileOf, hd], by simp [fileOf, openFd, hne, hd],
    ⟨n, item.sockInfo⟩, ?_, ?_⟩
  · exact List.mem_append_right _ List.mem_cons_self
  · simp [fileOf, openFd]

/-- **What a listening method hands over** is the file of an unclaimed entry, and an entry
in use refers to it afterwards. -/
theorem listenWith_inherited {c : Creation SockInfo} {adopt : Bool}
    (h : p.listenWith k c adopt = some (.ok (.inherited, fd), q)) :
    ∃ file, q.fileOf fd = some file ∧ q.Holds file ∧
      ∃ li ∈ p.inheritedFds, p.fileOf li.fd = some file := by
  rcases listenWith_eq_some h with
    ⟨fd', q', hinh, ⟨_, hres, rfl⟩ | ⟨_, hres, _⟩⟩ |
    ⟨q', hinh, ⟨msg, _, hres, _⟩ | ⟨fd', file, info, rfl, ⟨_, hres⟩ | ⟨e, _, hres, _⟩⟩⟩ <;>
  cases hres
  rcases inherit_eq_some hinh with ⟨hr, _⟩ | ⟨fd', q', htake, hadd, hr⟩ | ⟨_, _, _, _, hr⟩ <;>
  cases hr
  rcases take_eq_some htake with ⟨_, hr, _⟩ | ⟨li, d, hfind, hr, hd, rfl⟩ <;> cases hr
  obtain ⟨file, hfile, hfd, hholds⟩ := holds_add hadd
  refine ⟨file, hfd, hholds, li, List.mem_of_find?_eq_some hfind, ?_⟩
  rw [← hfile]
  exact (fileOf_setFlag hd true li.fd).symm

/-- A listening method that succeeds registers one entry; one that fails, at most one. -/
theorem usedFds_listenWith {c : Creation SockInfo} {adopt : Bool} {res : Listened}
    (h : p.listenWith k c adopt = some (res, q)) :
    ∃ added : Option ListenerInfo, q.usedFds = p.usedFds ++ added.toList ∧
      (res.isOk = true → added.isSome = true) := by
  rcases listenWith_eq_some h with ⟨fd, q', hinh, hcases⟩ | ⟨q', hinh, hcases⟩ <;>
  have hlists := (lists_inherit hinh).2
  · obtain ⟨n, hused⟩ := hlists
    rcases hcases with ⟨_, _, rfl⟩ | ⟨_, _, rfl⟩ <;> exact ⟨some ⟨n, k⟩, hused, fun _ => rfl⟩
  · have hused : q'.usedFds = p.usedFds := hlists
    rcases hcases with ⟨msg, _, rfl, rfl⟩ | ⟨fd, file, info, _, ⟨hadd, _⟩ | ⟨e, _, rfl, rfl⟩⟩
    · exact ⟨none, by simp [hused], by simp [Except.isOk, Except.toBool]⟩
    · obtain ⟨-, n, hadded⟩ := lists_add hadd
      exact ⟨some ⟨n, info⟩, hadded.trans (by rw [← hused]; rfl), fun _ => rfl⟩
    · exact ⟨none, by simp [← hused, openFd, Proc.closeFdQuiet],
        by simp [Except.isOk, Except.toBool]⟩

/-- `quit` closes and forgets the entries in use. -/
theorem WF.closeUsed (hp : p.WF) : p.closeUsed.WF := by
  have hreg : p.closeUsed.registered = p.inheritedFds.map ListenerInfo.fd := by
    simp [registered, Proc.closeUsed]
  have hsub : (p.inheritedFds.map ListenerInfo.fd).Sublist p.registered := by
    rw [registered, List.map_append]
    exact List.sublist_append_left _ _
  refine hp.shrink (hreg ▸ hsub) fun fd hfd hopen => ?_
  rw [hreg] at hfd
  have hnot : fd ∉ p.usedFds.map ListenerInfo.fd := fun hmem => hp.not_mem_inherited hmem hfd
  show (p.table.closeAll _ fd).isSome
  rw [DescriptorTable.closeAll_apply, if_neg hnot]
  exact hopen

/-! ## The ledger -/

/-- The ledger depends on the two lists and on the files of their numbers only. -/
theorem ledger_congr (hinh : q.inheritedFds = p.inheritedFds) (hused : q.usedFds = p.usedFds)
    (hfile : ∀ fd ∈ p.registered, q.fileOf fd = p.fileOf fd) : q.ledger = p.ledger := by
  have hentry : ∀ li ∈ p.inheritedFds ++ p.usedFds, q.entry li = p.entry li := fun li hli => by
    rw [entry, entry, hfile li.fd (List.mem_map_of_mem hli)]
  unfold ledger
  rw [hinh, hused, List.map_congr_left fun li hli => hentry li (List.mem_append_left _ hli),
    List.map_congr_left fun li hli => hentry li (List.mem_append_right _ hli)]

/-- What happens to numbers outside the registry does not show in the ledger. -/
theorem ledger_openFd (h : fd ∉ p.registered) : (p.openFd fd d).ledger = p.ledger :=
  ledger_congr rfl rfl fun _ hfd' => fileOf_openFd_of_ne fun heq => h (heq ▸ hfd')

theorem ledger_closeFdQuiet (h : fd ∉ p.registered) : (p.closeFdQuiet fd).ledger = p.ledger := by
  refine ledger_congr rfl rfl fun fd' hfd' => ?_
  have hne : fd' ≠ fd := fun heq => h (heq ▸ hfd')
  simp [fileOf, Proc.closeFdQuiet, hne]

/-- `take` finds nothing exactly when the ledger has nothing under the key. -/
theorem find_ledger :
    p.ledger.find k
      = (p.inheritedFds.find? fun li => li.sockInfo == k).map fun li => p.fileOf li.fd := by
  rw [Ledger.find, ledger, List.find?_map, Option.map_map]
  rfl

/-- `take` takes from the ledger, and returns a number for the file taken. -/
theorem ledger_take (h : p.take k = some (some fd, q)) :
    q.ledger = p.ledger.take k ∧ p.ledger.find k = some (q.fileOf fd) ∧
      q.fileOf fd = p.fileOf fd := by
  rcases take_eq_some h with ⟨_, hr, _⟩ | ⟨li, d, hfind, hr, hd, rfl⟩
  · cases hr
  · cases hr
    have hfile := fileOf_setFlag hd true
    refine ⟨?_, ?_, hfile li.fd⟩
    · have hentry : (p.openFd li.fd { d with cloexec := true }).entry = p.entry := by
        funext li'
        rw [entry, entry, hfile]
      show Ledger.mk (List.map (p.openFd li.fd { d with cloexec := true }).entry _)
        (List.map (p.openFd li.fd { d with cloexec := true }).entry p.usedFds) = _
      rw [hentry, Ledger.take, ledger, List.eraseP_map]
      rfl
    · rw [find_ledger, hfind, Option.map_some, ← hfile li.fd]
      rfl

/-- What `take` finds was the registry's. -/
theorem mem_registered_of_take (h : p.take k = some (some fd, q)) : fd ∈ p.registered := by
  rcases take_eq_some h with ⟨_, hr, _⟩ | ⟨li, d, hfind, hr, _⟩
  · cases hr
  · cases hr
    exact List.mem_map_of_mem (List.mem_append_left _ (List.mem_of_find?_eq_some hfind))

/-- When `take` finds nothing, neither does the ledger. -/
theorem ledger_take_none (h : p.take k = some (none, q)) : q = p ∧ p.ledger.find k = none := by
  rcases take_eq_some h with ⟨hnone, _, rfl⟩ | ⟨li, d, _, hr, _⟩
  · exact ⟨rfl, by rw [find_ledger, hnone, Option.map_none]⟩
  · cases hr

/-- Whether or not it finds anything, `take` is that of the ledger. -/
theorem ledger_take_find {r : Option RawFd} (h : p.take k = some (r, q)) :
    q.ledger = p.ledger.take k ∧ r.map q.fileOf = p.ledger.find k := by
  cases r with
  | some fd =>
    obtain ⟨hledger, hfind, -⟩ := ledger_take h
    exact ⟨hledger, hfind.symm⟩
  | none =>
    obtain ⟨rfl, hfind⟩ := ledger_take_none h
    rw [Ledger.take_of_find_eq_none hfind, hfind]
    exact ⟨rfl, rfl⟩

/-- `add` enters the file of the number it is given. -/
theorem ledger_add (hp : p.WF) (h : p.add item = .ok q) :
    q.ledger = p.ledger.register item.sockInfo (p.fileOf item.fd) ∧
      ∀ fd, (p.table fd).isSome → q.fileOf fd = p.fileOf fd := by
  obtain ⟨n, d, hd, -, -, hfree, rfl⟩ := add_eq_ok h
  set p' := p.openFd n { d with cloexec := true } with hp'
  have hkeep : ∀ fd, (p.table fd).isSome → p'.fileOf fd = p.fileOf fd := by
    intro fd hopen
    refine fileOf_openFd_of_ne ?_
    rintro rfl
    rw [hfree] at hopen
    cases hopen
  refine ⟨?_, hkeep⟩
  have hold : p'.ledger = p.ledger :=
    ledger_congr rfl rfl fun fd hfd => hkeep fd (hp.isOpen fd hfd)
  have hnew : p'.fileOf n = p.fileOf item.fd := by
    rw [hp', fileOf_openFd_self, fileOf, hd, Option.map_some]
  show Ledger.mk (p'.inheritedFds.map p'.entry) ((p'.usedFds ++ [_]).map p'.entry) = _
  rw [List.map_append, List.map_singleton, entry, hnew, ← hold]
  rfl

/-- `close_inherited` gives up what is not claimed. -/
theorem ledger_closeInherited (hp : p.WF) :
    p.closeInherited.ledger = { p.ledger with inherited := [] } := by
  have hentry : ∀ li ∈ p.usedFds, p.closeInherited.entry li = p.entry li := fun li hli => by
    rw [entry, entry, hp.evolves_closeInherited.usedFile li hli]
  unfold ledger
  rw [← List.map_congr_left hentry]
  rfl

/-! ## Requests -/

/-- The duplications a listening method makes all succeed. -/
def dupsSucceed (p : Proc) (k : SockInfo) (c : Creation SockInfo) : Bool :=
  match p.take k, c with
  | some (some fd, q), _ => (q.cloneFd fd).isOk
  | some (none, q), .created fd file _ => ((q.openFd fd ⟨file, true⟩).cloneFd fd).isOk
  | _, _ => true

/-- The result of a listening method as the ledger sees it. -/
def answer (p : Proc) : Listened → Ledger.Answer (Option ℕ)
  | .ok (.inherited, fd) => .handed (p.fileOf fd)
  | .ok (.created, fd) => .fresh (p.fileOf fd)
  | .error _ => .refused

/-- `add` fails only when the duplication does. -/
theorem add_ne_error {e : Errno} (h : (p.cloneFd item.fd).isOk = true) :
    p.add item ≠ .error e := by
  intro hadd
  unfold add at hadd
  split at hadd
  · rename_i e' hclone
    rw [hclone] at h
    cases h
  · cases hadd

/-- **A listening method is a request of the ledger**, unless a duplication fails. -/
theorem ledger_listenWith (hp : p.WF) {c : Creation SockInfo} {res : Listened}
    (hc : ∀ fd file info, c = .created fd file info → fd ∉ p.registered)
    (hdup : p.dupsSucceed k c = true) (h : p.listenWith k c true = some (res, q)) :
    q.ledger = (p.ledger.request k c.fresh).2 ∧
      q.answer res = (p.ledger.request k c.fresh).1 := by
  rcases listenWith_eq_some h with
    ⟨fd, q', hinh, ⟨-, rfl, rfl⟩ | ⟨hfalse, _⟩⟩ | ⟨q', hinh, hcreate⟩
  · -- an inherited entry is claimed
    rcases inherit_eq_some hinh with ⟨hr, _⟩ | ⟨fd', q', htake, hadd, hr⟩ | ⟨_, _, _, _, hr⟩
    · cases hr
    · cases hr
      obtain ⟨hledger, hfind, -⟩ := ledger_take htake
      obtain ⟨hq', -, hfd⟩ := hp.take htake
      obtain ⟨hreg, hkeep⟩ := ledger_add hq' hadd
      rw [Ledger.request_of_find_eq_some hfind]
      refine ⟨by rw [hreg, hledger], ?_⟩
      rw [answer, hkeep fd (hfd fd rfl).2]
    · cases hr
  · cases hfalse
  · -- there is none: the socket is new, and its registration does not fail
    rcases inherit_eq_some hinh with ⟨-, rfl, htake⟩ | ⟨_, _, _, _, hr⟩ | ⟨fd, e, htake, hadd, -⟩
    · have hfind := (ledger_take_none htake).2
      rw [Ledger.request_of_find_eq_none hfind]
      rcases hcreate with ⟨msg, rfl, rfl, rfl⟩ | ⟨fd, file, info, rfl, ⟨hadd, rfl⟩ | ⟨e, hadd, _⟩⟩
      · exact ⟨rfl, rfl⟩
      · obtain ⟨hreg, hkeep⟩ := ledger_add (hp.openFd fd ⟨file, true⟩) hadd
        rw [ledger_openFd (hc fd file info rfl), fileOf_openFd_self] at hreg
        refine ⟨hreg, ?_⟩
        rw [answer, hkeep fd (by simp [openFd]), fileOf_openFd_self]
        rfl
      · simp only [dupsSucceed, htake] at hdup
        exact absurd hadd (add_ne_error hdup)
    · cases hr
    · simp only [dupsSucceed, htake] at hdup
      exact absurd hadd (add_ne_error hdup)

/-- **`unix_datagram_pair` is an exchange in the ledger**: it returns what the ledger has
under the name, and enters the child's end; nothing is entered when the pair cannot be made
or registered. -/
theorem ledger_unixDatagramPair (hp : p.WF) {name : String} {c : Pair}
    {res : Option RawFd × Except ListenError RawFd}
    (hc : ∀ toChild childs file file', c = .made toChild childs file file' →
      toChild ∉ p.registered ∧ childs ∉ p.registered)
    (h : p.unixDatagramPair name c = some (res, q)) :
    res.1.map q.fileOf = p.ledger.find (.unboundUnixDatagram name) ∧
      ((∃ e, res.2 = .error e ∧
          q.ledger = p.ledger.exchange (.unboundUnixDatagram name) none) ∨
        ∃ toChild childs file file', c = .made toChild childs file file' ∧
          res.2 = .ok toChild ∧ (childs ≠ toChild → q.fileOf toChild = some file) ∧
          q.ledger = p.ledger.exchange (.unboundUnixDatagram name) (some (some file'))) := by
  obtain ⟨r, q', htake, hor⟩ := unixDatagramPair_eq_some h
  obtain ⟨hq', hsub, hfound⟩ := hp.take htake
  obtain ⟨hledger, hfirst⟩ := ledger_take_find htake
  rcases hor with ⟨msg, _, rfl, rfl⟩ | ⟨toChild, childs, file, file', rfl, hor⟩
  · exact ⟨hfirst, .inl ⟨_, rfl, hledger⟩⟩
  · obtain ⟨htoChild, hchilds⟩ := hc toChild childs file file' rfl
    have htoChild' : toChild ∉ q'.registered := fun hmem => htoChild (hsub.subset hmem)
    have hchilds' : childs ∉ q'.registered := fun hmem => hchilds (hsub.subset hmem)
    have hopen : ((q'.openFd toChild ⟨file, true⟩).openFd childs ⟨file', true⟩).ledger
        = q'.ledger := by
      rw [ledger_openFd (by simpa using hchilds'), ledger_openFd htoChild']
    have hq'' := (hq'.openFd toChild ⟨file, true⟩).openFd childs ⟨file', true⟩
    -- what has been taken was the registry's, so neither end has its number
    have hne : ∀ fd, r = some fd → fd ≠ toChild ∧ fd ≠ childs := by
      rintro fd rfl
      have hmem := mem_registered_of_take htake
      exact ⟨fun heq => htoChild (heq ▸ hmem), fun heq => hchilds (heq ▸ hmem)⟩
    rcases hor with ⟨q₁, hadd, rfl, rfl⟩ | ⟨e, _, rfl, rfl⟩
    · obtain ⟨hreg, hkeep⟩ := ledger_add hq'' hadd
      have hnot := (hq''.add hadd).2 childs hchilds' (by simp [openFd])
      refine ⟨?_, .inr ⟨toChild, childs, file, file', rfl, rfl, fun hdist => ?_, ?_⟩⟩
      · rw [← hfirst]
        cases r with
        | none => rfl
        | some fd =>
          obtain ⟨hfd, hfd'⟩ := hne fd rfl
          simp only [Option.map_some, Option.some.injEq]
          rw [fileOf_closeFdQuiet_of_ne hfd', hkeep fd, fileOf_openFd_of_ne hfd',
            fileOf_openFd_of_ne hfd]
          simpa [openFd, hfd, hfd'] using (hfound fd rfl).2
      · rw [fileOf_closeFdQuiet_of_ne hdist.symm, hkeep toChild (by simp [openFd, hdist.symm]),
          fileOf_openFd_of_ne hdist.symm, fileOf_openFd_self]
      · rw [ledger_closeFdQuiet hnot, hreg, hopen, hledger, fileOf_openFd_self]
        rfl
    · refine ⟨?_, .inl ⟨_, rfl, ?_⟩⟩
      · rw [← hfirst]
        cases r with
        | none => rfl
        | some fd =>
          obtain ⟨hfd, hfd'⟩ := hne fd rfl
          simp only [Option.map_some, Option.some.injEq]
          rw [fileOf_closeFdQuiet_of_ne hfd, fileOf_closeFdQuiet_of_ne hfd',
            fileOf_openFd_of_ne hfd', fileOf_openFd_of_ne hfd]
      · rw [ledger_closeFdQuiet (by simpa using htoChild'),
          ledger_closeFdQuiet (by simpa using hchilds'), hopen, hledger]
        rfl

/-! ## Operations under other keys -/

variable {K : SockInfo}

/-- What is taken under another key leaves `K` alone. -/
theorem sameFor_of_take {r : Option RawFd} (h : p.take k = some (r, q))
    (hk : (k == K) = false) : Ledger.SameFor K p.ledger q.ledger := by
  rw [(ledger_take_find h).1]
  exact Ledger.sameFor_take hk

/-- So does what is entered under another key. -/
theorem sameFor_of_add (hp : p.WF) (h : p.add item = .ok q)
    (hk : (item.sockInfo == K) = false) : Ledger.SameFor K p.ledger q.ledger := by
  rw [(ledger_add hp h).1]
  exact Ledger.sameFor_register hk _

theorem sameFor_of_inherit (hp : p.WF) {r : Option RawFd} (h : p.inherit k = some (r, q))
    (hk : (k == K) = false) : Ledger.SameFor K p.ledger q.ledger := by
  rcases inherit_eq_some h with ⟨_, rfl, _⟩ | ⟨fd, q', htake, hadd, _⟩ | ⟨fd, e, htake, _, _⟩
  · exact .refl K _
  · exact (sameFor_of_take htake hk).trans (sameFor_of_add (hp.take htake).1 hadd hk)
  · exact sameFor_of_take htake hk

/-- **A listening method leaves other keys alone**, whatever fails. -/
theorem sameFor_of_listenWith (hp : p.WF) {c : Creation SockInfo} {adopt : Bool}
    {res : Listened} (hc : ∀ fd file info, c = .created fd file info → fd ∉ p.registered)
    (hinfo : ∀ fd file info, c = .created fd file info → (info == K) = false)
    (h : p.listenWith k c adopt = some (res, q)) (hk : (k == K) = false) :
    Ledger.SameFor K p.ledger q.ledger := by
  rcases listenWith_eq_some h with
    ⟨fd, q', hinh, ⟨_, _, rfl⟩ | ⟨_, _, rfl⟩⟩ |
    ⟨q', hinh, ⟨msg, _, _, rfl⟩ | ⟨fd, file, info, rfl, hor⟩⟩
  · exact sameFor_of_inherit hp hinh hk
  · rw [ledger_closeFdQuiet ((hp.inherit hinh).2.1 fd rfl)]
    exact sameFor_of_inherit hp hinh hk
  · exact sameFor_of_inherit hp hinh hk
  · obtain ⟨hq', -, hsub⟩ := hp.inherit hinh
    have hfd : fd ∉ q'.registered :=
      fun hmem => hc fd file info rfl ((hsub rfl).subset hmem)
    have hsame := sameFor_of_inherit hp hinh hk
    rw [← ledger_openFd (d := ⟨file, true⟩) hfd] at hsame
    rcases hor with ⟨hadd, _⟩ | ⟨e, _, _, rfl⟩
    · exact hsame.trans (sameFor_of_add (hq'.openFd fd _) hadd (hinfo fd file info rfl))
    · rw [ledger_closeFdQuiet (by simpa using hfd)]
      exact hsame

end Proc
