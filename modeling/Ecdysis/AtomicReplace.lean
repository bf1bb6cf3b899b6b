/-
# Replacing a file as a whole

General infrastructure: a folder in which any number of writers replace one file, each by
writing a new file beside it, piece by piece, and renaming that over it.  A writer may fail,
and then removes what it has written, or just stop.  Readers open the file and read it piece
by piece; what they have open stays what it is when the name goes to another file.

* `Folder.Inv` : the file is always the whole text of the writer that was last to rename, and
  nobody writes to it; every other new file belongs to one writer.
* `Inv.step` : every step keeps that.
* `Inv.got_whole` : a reader that reads to the end has got the whole text of one writer, or
  the text that was there before, however many renames came in between.
-/
import Mathlib

namespace AtomicReplace

variable {ι κ ν β : Type*}

/-! ## Folders -/

/-- What a writer does; `left` is what it has not yet written. -/
inductive Work (ν β : Type*)
  | idle
  | writing (name : ν) (inode : ℕ) (left : List β)
  | stored
  | failed

/-- What a reader does; `got` is what it has read. -/
inductive Reading (β : Type*)
  | idle
  | reading (inode : ℕ) (got : List β)
  | done (got : List β)

/-- A folder with its writers and readers.  `stored` are the writers that have renamed, in
that order. -/
structure Folder (ι κ ν β : Type*) where
  entry : ν → Option ℕ
  data : ℕ → List β
  inodes : ℕ
  work : ι → Work ν β
  reader : κ → Reading β
  stored : List ι

/-- What can happen. -/
inductive Event (ι κ ν : Type*)
  | create (i : ι) (name : ν)
  | write (i : ι) (n : ℕ)
  | rename (i : ι)
  | fail (i : ι)
  | openFile (r : κ)
  | read (r : κ) (n : ℕ)
  | close (r : κ)

/-- The writer that goes on, if it is one. -/
def Event.writer : Event ι κ ν → Option ι
  | .create i _ | .write i _ | .rename i | .fail i => some i
  | .openFile _ | .read _ _ | .close _ => none

namespace Folder

/-- One step, where `file` is to hold `text i` for writer `i`. -/
def step [DecidableEq ι] [DecidableEq κ] [DecidableEq ν] (file : ν) (text : ι → List β)
    (f : Folder ι κ ν β) : Event ι κ ν → Option (Folder ι κ ν β)
  | .create i name =>
    match f.work i with
    | .idle =>
      if f.entry name = none then
        some { f with
          entry := Function.update f.entry name (some f.inodes)
          data := Function.update f.data f.inodes []
          inodes := f.inodes + 1
          work := Function.update f.work i (.writing name f.inodes (text i)) }
      else none
    | _ => none
  | .write i n =>
    match f.work i with
    | .writing name inode left =>
      if 0 < n ∧ n ≤ left.length then
        some { f with
          data := Function.update f.data inode (f.data inode ++ left.take n)
          work := Function.update f.work i (.writing name inode (left.drop n)) }
      else none
    | _ => none
  | .rename i =>
    match f.work i with
    | .writing name inode [] =>
      some { f with
        entry := Function.update (Function.update f.entry file (some inode)) name none
        work := Function.update f.work i .stored
        stored := f.stored ++ [i] }
    | _ => none
  | .fail i =>
    match f.work i with
    | .idle => some { f with work := Function.update f.work i .failed }
    | .writing name _ _ =>
      some { f with
        entry := Function.update f.entry name none
        work := Function.update f.work i .failed }
    | _ => none
  | .openFile r =>
    match f.reader r, f.entry file with
    | .idle, some inode => some { f with reader := Function.update f.reader r (.reading inode []) }
    | _, _ => none
  | .read r n =>
    match f.reader r with
    | .reading inode got =>
      if 0 < n ∧ got.length + n ≤ (f.data inode).length then
        some { f with
          reader := Function.update f.reader r
            (.reading inode (got ++ ((f.data inode).drop got.length).take n)) }
      else none
    | _ => none
  | .close r =>
    match f.reader r with
    | .reading inode got =>
      if got.length = (f.data inode).length then
        some { f with reader := Function.update f.reader r (.done got) }
      else none
    | _ => none

/-- Nobody writes to the inode. -/
def Settled (f : Folder ι κ ν β) (inode : ℕ) : Prop :=
  ∀ i name left, f.work i ≠ .writing name inode left

/-- What the file has to hold: the text of the last writer, or what was there at first. -/
def current (text : ι → List β) (first : List β) (f : Folder ι κ ν β) : List β :=
  (f.stored.getLast?).elim first text

/-- The text was there at first, or it is the text of a writer that has renamed. -/
def Whole (text : ι → List β) (first : List β) (f : Folder ι κ ν β) (t : List β) : Prop :=
  t = first ∨ ∃ i ∈ f.stored, t = text i

/-- What holds of the writers, in a folder that had the entries `start` at first. -/
structure Writers (file : ν) (text : ι → List β) (first : List β) (start : ν → Option ℕ)
    (f : Folder ι κ ν β) : Prop where
  current : ∃ inode, f.entry file = some inode ∧ inode < f.inodes ∧ f.Settled inode ∧
    f.data inode = f.current text first
  writing : ∀ i name inode left, f.work i = .writing name inode left →
    name ≠ file ∧ f.entry name = some inode ∧ inode < f.inodes ∧
      f.data inode ++ left = text i ∧ start name = none
  apart : ∀ i j name name' inode left left', f.work i = .writing name inode left →
    f.work j = .writing name' inode left' → i = j
  others : ∀ name, name ≠ file → f.entry name = start name ∨
    ∃ i inode left, f.work i = .writing name inode left
  stored : ∀ i, i ∈ f.stored ↔ f.work i = .stored

/-- What holds of the readers. -/
structure Readers (text : ι → List β) (first : List β) (f : Folder ι κ ν β) : Prop where
  reading : ∀ r inode got, f.reader r = .reading inode got →
    inode < f.inodes ∧ f.Settled inode ∧ f.Whole text first (f.data inode) ∧
      got <+: f.data inode
  done : ∀ r got, f.reader r = .done got → f.Whole text first got

/-- **What holds of the folder at all times.** -/
structure Inv (file : ν) (text : ι → List β) (first : List β) (start : ν → Option ℕ)
    (f : Folder ι κ ν β) : Prop where
  writers : f.Writers file text first start
  readers : f.Readers text first

variable {file : ν} {text : ι → List β} {first : List β} {start : ν → Option ℕ}
  {f f' : Folder ι κ ν β} {inode : ℕ}

/-- The file holds a whole text. -/
theorem whole_current : f.Whole text first (f.current text first) := by
  cases hlast : f.stored.getLast? with
  | none => exact .inl (by simp [current, hlast])
  | some i => exact .inr ⟨i, List.mem_of_getLast? hlast, by simp [current, hlast]⟩

/-- A folder in which nobody has done anything yet. -/
theorem inv_init {inode : ℕ} (hentry : f.entry file = some inode) (hlt : inode < f.inodes)
    (hwork : ∀ i, f.work i = .idle) (hreader : ∀ r, f.reader r = .idle) (hstored : f.stored = []) :
    f.Inv file text (f.data inode) f.entry := by
  refine ⟨⟨⟨inode, hentry, hlt, ?_, ?_⟩, ?_, ?_, fun _ _ => .inl rfl, ?_⟩, ⟨?_, ?_⟩⟩
  · intro i name left hi
    rw [hwork i] at hi
    cases hi
  · simp [current, hstored]
  · intro i name ino left hi
    rw [hwork i] at hi
    cases hi
  · intro i j name name' ino left left' hi
    rw [hwork i] at hi
    cases hi
  · intro i
    rw [hwork i, hstored]
    simp
  · intro r ino got hr
    rw [hreader r] at hr
    cases hr
  · intro r got hr
    rw [hreader r] at hr
    cases hr

/-! ## Steps of a reader -/

/-- A reader does not touch what the writers have. -/
theorem Writers.reader (hf : f.Writers file text first start) (reader : κ → Reading β) :
    Writers file text first start { f with reader := reader } :=
  ⟨hf.current, hf.writing, hf.apart, hf.others, hf.stored⟩

/-- The other readers keep what they have. -/
theorem Readers.update [DecidableEq κ] (hf : f.Readers text first) {r : κ} {x : Reading β}
    (hreading : ∀ inode got, x = .reading inode got → inode < f.inodes ∧ f.Settled inode ∧
      f.Whole text first (f.data inode) ∧ got <+: f.data inode)
    (hdone : ∀ got, x = .done got → f.Whole text first got) :
    Readers text first { f with reader := Function.update f.reader r x } := by
  refine ⟨fun q ino got hq => ?_, fun q got hq => ?_⟩
  · by_cases hqr : q = r
    · subst hqr
      dsimp only at hq
      rw [Function.update_self] at hq
      exact hreading ino got hq
    · dsimp only at hq
      rw [Function.update_of_ne hqr] at hq
      exact hf.reading q ino got hq
  · by_cases hqr : q = r
    · subst hqr
      dsimp only at hq
      rw [Function.update_self] at hq
      exact hdone got hq
    · dsimp only at hq
      rw [Function.update_of_ne hqr] at hq
      exact hf.done q got hq

/-! ## Steps of a writer -/

/-- What a step of a writer leaves to the readers. -/
structure Keeps (f f' : Folder ι κ ν β) : Prop where
  reader : f'.reader = f.reader
  inodes : f.inodes ≤ f'.inodes
  settled : ∀ inode, inode < f.inodes → f.Settled inode →
    f'.Settled inode ∧ f'.data inode = f.data inode
  stored : ∀ i ∈ f.stored, i ∈ f'.stored

/-- What was whole stays whole. -/
theorem Whole.mono {t : List β} (ht : f.Whole text first t)
    (hstored : ∀ i ∈ f.stored, i ∈ f'.stored) : f'.Whole text first t :=
  ht.imp_right fun ⟨i, hi, heq⟩ => ⟨i, hstored i hi, heq⟩

/-- A step of a writer leaves the readers what they have. -/
theorem Readers.keeps (hf : f.Readers text first) (h : f.Keeps f') : f'.Readers text first := by
  refine ⟨fun r ino got hr => ?_, fun r got hr => ?_⟩
  · rw [h.reader] at hr
    obtain ⟨hlt, hsettled, hwhole, hbegins⟩ := hf.reading r ino got hr
    obtain ⟨hsettled', hdata⟩ := h.settled ino hlt hsettled
    rw [hdata]
    exact ⟨hlt.trans_le h.inodes, hsettled', hwhole.mono h.stored, hbegins⟩
  · rw [h.reader] at hr
    exact (hf.done r got hr).mono h.stored

variable [DecidableEq ι]

/-- An inode that nobody writes to stays so, if the writer that goes on does not turn to it. -/
theorem Settled.update {i : ι} {x : Work ν β} (hf : f.Settled inode)
    (hwork : f'.work = Function.update f.work i x)
    (hx : ∀ name left, x ≠ .writing name inode left) : f'.Settled inode := by
  intro j name left hj
  rw [hwork] at hj
  by_cases hji : j = i
  · subst hji
    rw [Function.update_self] at hj
    exact hx name left hj
  · rw [Function.update_of_ne hji] at hj
    exact hf j name left hj

/-- The writer that goes on is in its new state, the others stay where they are. -/
theorem work_cases {i j : ι} {x y : Work ν β} (hwork : f'.work = Function.update f.work i x)
    (hj : f'.work j = y) : j = i ∧ x = y ∨ j ≠ i ∧ f.work j = y := by
  rw [hwork] at hj
  by_cases hji : j = i
  · subst hji
    rw [Function.update_self] at hj
    exact .inl ⟨rfl, hj⟩
  · rw [Function.update_of_ne hji] at hj
    exact .inr ⟨hji, hj⟩

/-- Two writers do not share an inode after a step if the one that goes on keeps its own or
takes a new one. -/
theorem Writers.apart_update (hf : f.Writers file text first start) {i : ι} {x : Work ν β}
    (hwork : f'.work = Function.update f.work i x)
    (hx : ∀ name inode left, x = .writing name inode left → f.inodes ≤ inode ∨
      ∃ name' left', f.work i = .writing name' inode left')
    {j k : ι} {name name' : ν} {inode : ℕ} {left left' : List β}
    (hj : f'.work j = .writing name inode left) (hk : f'.work k = .writing name' inode left') :
    j = k := by
  have hother : ∀ {l : ι} {n n' : ν} {m m' : List β}, x = .writing n inode m → l ≠ i →
      f.work l = .writing n' inode m' → False := by
    intro l n n' m m' heq hne hl
    rcases hx n inode m heq with hle | ⟨n₀, m₀, hi⟩
    · have hlt := (hf.writing l n' inode m' hl).2.2.1
      omega
    · exact hne (hf.apart l i n' n₀ inode m' m₀ hl hi)
  rcases work_cases hwork hj with ⟨rfl, hxj⟩ | ⟨hne, hj⟩
  · rcases work_cases hwork hk with ⟨rfl, -⟩ | ⟨hne, hk⟩
    · rfl
    · exact (hother hxj hne hk).elim
  · rcases work_cases hwork hk with ⟨rfl, hxk⟩ | ⟨-, hk⟩
    · exact (hother hxk hne hj).elim
    · exact hf.apart j k name name' inode left left' hj hk

/-- Who has renamed, after a step of a writer that does not. -/
theorem Writers.stored_update (hf : f.Writers file text first start) {i : ι} {x : Work ν β}
    (hwork : f'.work = Function.update f.work i x) (hstored : f'.stored = f.stored)
    (hi : f.work i ≠ .stored) (hx : x ≠ .stored) (j : ι) :
    j ∈ f'.stored ↔ f'.work j = .stored := by
  rw [hstored, hf.stored j, hwork]
  by_cases hji : j = i
  · subst hji
    simp [hi, hx]
  · rw [Function.update_of_ne hji]

variable [DecidableEq ν]

/-- What holds of the other new files when the name of a writer's file goes. -/
theorem Writers.others_remove (hf : f.Writers file text first start) {i : ι} {name : ν}
    {inode : ℕ} {left : List β} {x : Work ν β} (hi : f.work i = .writing name inode left)
    (hwork : f'.work = Function.update f.work i x)
    (hentry : ∀ name', name' ≠ file →
      f'.entry name' = if name' = name then none else f.entry name')
    (name' : ν) (hnf : name' ≠ file) : f'.entry name' = start name' ∨
      ∃ j ino left', f'.work j = .writing name' ino left' := by
  obtain ⟨-, hent, -, -, hstart⟩ := hf.writing i name inode left hi
  rw [hentry name' hnf]
  by_cases hnn : name' = name
  · subst hnn
    exact .inl (by rw [if_pos rfl, hstart])
  · rw [if_neg hnn]
    rcases hf.others name' hnf with heq | ⟨j, ino, left', hj⟩
    · exact .inl heq
    · refine .inr ⟨j, ino, left', ?_⟩
      have hji : j ≠ i := by
        rintro rfl
        rw [hi] at hj
        cases hj
        exact hnn rfl
      rw [hwork, Function.update_of_ne hji, hj]

/-- The other writers keep their files when the name of a writer's file goes. -/
theorem Writers.writing_remove (hf : f.Writers file text first start) {i : ι} {name : ν}
    {inode : ℕ} {left : List β} {x : Work ν β} (hi : f.work i = .writing name inode left)
    (hwork : f'.work = Function.update f.work i x)
    (hx : ∀ name inode left, x ≠ .writing name inode left)
    (hentry : ∀ name', name' ≠ file →
      f'.entry name' = if name' = name then none else f.entry name')
    (hinodes : f'.inodes = f.inodes) (hdata : f'.data = f.data)
    (j : ι) (name' : ν) (ino : ℕ) (left' : List β) (hj : f'.work j = .writing name' ino left') :
    name' ≠ file ∧ f'.entry name' = some ino ∧ ino < f'.inodes ∧
      f'.data ino ++ left' = text j ∧ start name' = none := by
  rcases work_cases hwork hj with ⟨-, heq⟩ | ⟨hji, hj⟩
  · exact absurd heq (hx name' ino left')
  · obtain ⟨hnf, hent, hino, htext, hstart⟩ := hf.writing j name' ino left' hj
    have hnn : name' ≠ name := by
      rintro rfl
      rw [(hf.writing i name' inode left hi).2.1, Option.some.injEq] at hent
      subst hent
      exact hji (hf.apart j i name' name' inode left' left hj hi)
    rw [hentry name' hnf, if_neg hnn, hinodes, hdata]
    exact ⟨hnf, hent, hino, htext, hstart⟩

variable [DecidableEq κ]

/-- A writer makes its file. -/
theorem Inv.create (hf : f.Inv file text first start) {i : ι} {name : ν}
    (h : f.step file text (.create i name) = some f') : f'.Inv file text first start := by
  simp only [step] at h
  split at h
  · rename_i hidle
    split at h
    · rename_i hfree
      cases h
      obtain ⟨inode, hentry, hlt, hsettled, hdata⟩ := hf.writers.current
      have hne : name ≠ file := by
        rintro rfl
        rw [hfree] at hentry
        cases hentry
      have hfresh : start name = none := by
        rcases hf.writers.others name hne with heq | ⟨j, ino, left, hj⟩
        · rw [← heq, hfree]
        · rw [(hf.writers.writing j name ino left hj).2.1] at hfree
          cases hfree
      have hold : ∀ ino, ino < f.inodes → Function.update f.data f.inodes [] ino = f.data ino :=
        fun ino hino => Function.update_of_ne (by omega) _ _
      have hsettle : ∀ ino, ino < f.inodes → ∀ name' left,
          Work.writing name f.inodes (text i) ≠ .writing name' ino left := by
        intro ino hino name' left heq
        cases heq
        omega
      refine ⟨⟨⟨inode, ?_, ?_, hsettled.update rfl (hsettle inode hlt), ?_⟩, ?_,
        fun j k n n' ino m m' => hf.writers.apart_update rfl ?_, ?_,
        hf.writers.stored_update rfl rfl (by simp [hidle]) (by simp)⟩,
        hf.readers.keeps ⟨rfl, ?_, fun ino hino hs => ⟨hs.update rfl (hsettle ino hino), ?_⟩,
          fun _ hi => hi⟩⟩
      · dsimp only
        rw [Function.update_of_ne hne.symm, hentry]
      · exact hlt.trans (Nat.lt_succ_self _)
      · dsimp only
        rw [hold inode hlt, hdata]
        rfl
      · intro j name' ino left hj
        rcases work_cases rfl hj with ⟨rfl, heq⟩ | ⟨-, hj⟩
        · cases heq
          exact ⟨hne, Function.update_self .., Nat.lt_succ_self _, by simp, hfresh⟩
        · obtain ⟨hnf, hent, hino, htext, hstart⟩ := hf.writers.writing j name' ino left hj
          have hnn : name' ≠ name := by
            rintro rfl
            rw [hfree] at hent
            cases hent
          refine ⟨hnf, ?_, hino.trans (Nat.lt_succ_self _), ?_, hstart⟩
          · dsimp only
            rw [Function.update_of_ne hnn, hent]
          · dsimp only
            rw [hold ino hino, htext]
      · intro name' ino left heq
        cases heq
        exact .inl (le_refl _)
      · intro name' hnf
        by_cases hnn : name' = name
        · subst hnn
          exact .inr ⟨i, f.inodes, text i, Function.update_self ..⟩
        · rcases hf.writers.others name' hnf with heq | ⟨j, ino, left, hj⟩
          · exact .inl (by simp only [Function.update_of_ne hnn, heq])
          · refine .inr ⟨j, ino, left, ?_⟩
            have hji : j ≠ i := by
              rintro rfl
              rw [hidle] at hj
              cases hj
            dsimp only
            rw [Function.update_of_ne hji, hj]
      · exact Nat.le_succ _
      · exact hold ino hino
    · cases h
  · cases h

/-- A writer writes a piece. -/
theorem Inv.write (hf : f.Inv file text first start) {i : ι} {n : ℕ}
    (h : f.step file text (.write i n) = some f') : f'.Inv file text first start := by
  simp only [step] at h
  split at h
  · rename_i name inode left hi
    split at h
    · rename_i hn
      cases h
      obtain ⟨hne, hent, hino, htext, hstart⟩ := hf.writers.writing i name inode left hi
      obtain ⟨cur, hentry, hlt, hsettled, hdata⟩ := hf.writers.current
      have hapart : ∀ ino, f.Settled ino → ino ≠ inode := by
        rintro ino hs rfl
        exact hs i name left hi
      have hsettle : ∀ ino, f.Settled ino → ∀ name' left',
          Work.writing name inode (left.drop n) ≠ .writing name' ino left' := by
        intro ino hs name' left' heq
        cases heq
        exact hapart inode hs rfl
      refine ⟨⟨⟨cur, hentry, hlt, hsettled.update rfl (hsettle cur hsettled), ?_⟩, ?_,
        fun j k n n' ino m m' => hf.writers.apart_update rfl ?_, ?_,
        hf.writers.stored_update rfl rfl (by simp [hi]) (by simp)⟩,
        hf.readers.keeps ⟨rfl, le_refl _, fun ino hino hs =>
          ⟨hs.update rfl (hsettle ino hs), ?_⟩, fun _ hi => hi⟩⟩
      · dsimp only
        rw [Function.update_of_ne (hapart cur hsettled), hdata]
        rfl
      · intro j name' ino left' hj
        rcases work_cases rfl hj with ⟨rfl, heq⟩ | ⟨hji, hother⟩
        · cases heq
          refine ⟨hne, hent, hino, ?_, hstart⟩
          dsimp only
          rw [Function.update_self, List.append_assoc, List.take_append_drop, htext]
        · obtain ⟨hnf, hent', hino', htext', hstart'⟩ :=
            hf.writers.writing j name' ino left' hother
          have hne' : ino ≠ inode := by
            rintro rfl
            exact hji (hf.writers.apart j i name' name ino left' left hother hi)
          exact ⟨hnf, hent', hino', by simp only [Function.update_of_ne hne', htext'], hstart'⟩
      · intro name' ino left' heq
        cases heq
        exact .inr ⟨name, left, hi⟩
      · intro name' hnf
        rcases hf.writers.others name' hnf with heq | ⟨j, ino, left', hj⟩
        · exact .inl heq
        · right
          by_cases hji : j = i
          · subst hji
            rw [hi] at hj
            cases hj
            exact ⟨j, inode, left.drop n, Function.update_self ..⟩
          · exact ⟨j, ino, left', by simp only [Function.update_of_ne hji, hj]⟩
      · exact Function.update_of_ne (hapart ino hs) _ _
    · cases h
  · cases h

/-- A writer renames its file. -/
theorem Inv.rename (hf : f.Inv file text first start) {i : ι}
    (h : f.step file text (.rename i) = some f') : f'.Inv file text first start := by
  simp only [step] at h
  split at h
  · rename_i name inode hi
    cases h
    obtain ⟨hne, hent, hino, htext, hstart⟩ := hf.writers.writing i name inode [] hi
    have hentry : ∀ name', name' ≠ file →
        Function.update (Function.update f.entry file (some inode)) name none name' =
          if name' = name then none else f.entry name' := by
      intro name' hnf
      by_cases hnn : name' = name
      · subst hnn
        rw [Function.update_self, if_pos rfl]
      · rw [Function.update_of_ne hnn, Function.update_of_ne hnf, if_neg hnn]
    have hsettle : ∀ ino : ℕ, ∀ name' left',
        (Work.stored : Work ν β) ≠ .writing name' ino left' := by simp
    refine ⟨⟨⟨inode, ?_, hino, ?_, ?_⟩,
      hf.writers.writing_remove hi rfl (by simp) hentry rfl rfl,
      fun j k n n' ino m m' => hf.writers.apart_update rfl (by simp),
      hf.writers.others_remove hi rfl hentry, ?_⟩,
      hf.readers.keeps ⟨rfl, le_refl _, fun ino hino hs => ⟨hs.update rfl (hsettle ino), rfl⟩,
        fun j hj => List.mem_append_left _ hj⟩⟩
    · dsimp only
      rw [Function.update_of_ne hne.symm, Function.update_self]
    · intro j name' left' hj
      rcases work_cases rfl hj with ⟨-, heq⟩ | ⟨hji, hj⟩
      · cases heq
      · exact hji (hf.writers.apart j i name' name inode left' [] hj hi)
    · rw [List.append_nil] at htext
      simp [current, htext]
    · intro j
      by_cases hji : j = i
      · subst hji
        simp
      · dsimp only
        rw [Function.update_of_ne hji, List.mem_append, hf.writers.stored j]
        simp [hji]
  · cases h

/-- A writer fails. -/
theorem Inv.fail (hf : f.Inv file text first start) {i : ι}
    (h : f.step file text (.fail i) = some f') : f'.Inv file text first start := by
  have hsettle : ∀ ino : ℕ, ∀ name' left',
      (Work.failed : Work ν β) ≠ .writing name' ino left' := by simp
  obtain ⟨cur, hentry, hlt, hsettled, hdata⟩ := hf.writers.current
  simp only [step] at h
  split at h
  · rename_i hi
    cases h
    refine ⟨⟨⟨cur, hentry, hlt, hsettled.update rfl (hsettle cur), hdata⟩,
      fun j name ino left hj => ?_, fun j k n n' ino m m' => hf.writers.apart_update rfl (by simp),
      fun name hne => ?_, hf.writers.stored_update rfl rfl (by simp [hi]) (by simp)⟩,
      hf.readers.keeps ⟨rfl, le_refl _, fun ino hino hs => ⟨hs.update rfl (hsettle ino), rfl⟩,
        fun _ hi => hi⟩⟩
    · rcases work_cases rfl hj with ⟨-, heq⟩ | ⟨-, hj⟩
      · cases heq
      · exact hf.writers.writing j name ino left hj
    · refine (hf.writers.others name hne).imp_right ?_
      rintro ⟨j, ino, left, hj⟩
      have hji : j ≠ i := by
        rintro rfl
        rw [hi] at hj
        cases hj
      exact ⟨j, ino, left, by simp only [Function.update_of_ne hji, hj]⟩
  · rename_i name inode left hi
    cases h
    have hne := (hf.writers.writing i name inode left hi).1
    have hentry' : ∀ name', name' ≠ file → Function.update f.entry name none name' =
        if name' = name then none else f.entry name' := by
      intro name' hnf
      by_cases hnn : name' = name
      · subst hnn
        rw [Function.update_self, if_pos rfl]
      · rw [Function.update_of_ne hnn, if_neg hnn]
    refine ⟨⟨⟨cur, ?_, hlt, hsettled.update rfl (hsettle cur), hdata⟩,
      hf.writers.writing_remove hi rfl (by simp) hentry' rfl rfl,
      fun j k n n' ino m m' => hf.writers.apart_update rfl (by simp),
      hf.writers.others_remove hi rfl hentry',
      hf.writers.stored_update rfl rfl (by simp [hi]) (by simp)⟩,
      hf.readers.keeps ⟨rfl, le_refl _, fun ino hino hs => ⟨hs.update rfl (hsettle ino), rfl⟩,
        fun _ hi => hi⟩⟩
    dsimp only
    rw [Function.update_of_ne hne.symm, hentry]
  · cases h

/-! ## All steps -/

/-- **Step lemma.** -/
theorem Inv.step {e : Event ι κ ν} (hf : f.Inv file text first start)
    (h : f.step file text e = some f') : f'.Inv file text first start := by
  cases e with
  | create i name => exact hf.create h
  | write i n => exact hf.write h
  | rename i => exact hf.rename h
  | fail i => exact hf.fail h
  | openFile r =>
    simp only [Folder.step] at h
    split at h
    · rename_i ino hr hentry
      cases h
      refine ⟨hf.writers.reader _, hf.readers.update (fun ino' got heq => ?_) (by simp)⟩
      cases heq
      obtain ⟨cur, hcur, hlt, hsettled, hdata⟩ := hf.writers.current
      rw [hcur, Option.some.injEq] at hentry
      subst hentry
      rw [hdata]
      exact ⟨hlt, hsettled, whole_current, List.nil_prefix⟩
    · cases h
  | read r n =>
    simp only [Folder.step] at h
    split at h
    · rename_i ino got hr
      split at h
      · cases h
        refine ⟨hf.writers.reader _, hf.readers.update (fun ino' got' heq => ?_) (by simp)⟩
        cases heq
        obtain ⟨hlt, hsettled, hwhole, hbegins⟩ := hf.readers.reading r ino got hr
        refine ⟨hlt, hsettled, hwhole, ?_⟩
        obtain ⟨rest, hrest⟩ := hbegins
        rw [← hrest, List.drop_left]
        exact (List.prefix_append_right_inj got).mpr (List.take_prefix n rest)
      · cases h
    · cases h
  | close r =>
    simp only [Folder.step] at h
    split at h
    · rename_i ino got hr
      split at h
      · rename_i hend
        cases h
        refine ⟨hf.writers.reader _, hf.readers.update (by simp) fun got' heq => ?_⟩
        cases heq
        obtain ⟨-, -, hwhole, hbegins⟩ := hf.readers.reading r ino got hr
        rw [hbegins.eq_of_length hend]
        exact hwhole
      · cases h
    · cases h

/-- What a step does to the writers: who has renamed has done so for good, who writes did so
before or has just begun, and a rename is put on record. -/
theorem work_step {e : Event ι κ ν} (h : f.step file text e = some f') :
    (∀ i, f.work i = .stored → f'.work i = .stored) ∧
    (∀ i name inode left, f'.work i = .writing name inode left →
      (∃ left', f.work i = .writing name inode left') ∨ e = .create i name) ∧
    (f'.stored = f.stored ∨ ∃ i, e = .rename i ∧ f'.stored = f.stored ++ [i]) := by
  have hmove : ∀ {i : ι} {x : Work ν β}, f'.work = Function.update f.work i x →
      f.work i ≠ .stored → ∀ j, f.work j = .stored → f'.work j = .stored := by
    intro i x hwork hi j hj
    have hji : j ≠ i := by
      rintro rfl
      exact hi hj
    rw [hwork, Function.update_of_ne hji, hj]
  cases e with
  | create i name =>
    simp only [step] at h
    split at h
    · rename_i hi
      split at h
      · cases h
        refine ⟨hmove rfl (by simp [hi]), fun j name' ino left hj => ?_, .inl rfl⟩
        rcases work_cases rfl hj with ⟨rfl, heq⟩ | ⟨-, hj⟩
        · cases heq
          exact .inr rfl
        · exact .inl ⟨left, hj⟩
      · cases h
    · cases h
  | write i n =>
    simp only [step] at h
    split at h
    · rename_i name ino left hi
      split at h
      · cases h
        refine ⟨hmove rfl (by simp [hi]), fun j name' ino' left' hj => .inl ?_, .inl rfl⟩
        rcases work_cases rfl hj with ⟨rfl, heq⟩ | ⟨-, hj⟩
        · cases heq
          exact ⟨left, hi⟩
        · exact ⟨left', hj⟩
      · cases h
    · cases h
  | rename i =>
    simp only [step] at h
    split at h
    · rename_i name ino hi
      cases h
      refine ⟨hmove rfl (by simp [hi]), fun j name' ino' left' hj => .inl ?_,
        .inr ⟨i, rfl, rfl⟩⟩
      rcases work_cases rfl hj with ⟨-, heq⟩ | ⟨-, hj⟩
      · cases heq
      · exact ⟨left', hj⟩
    · cases h
  | fail i =>
    simp only [step] at h
    split at h
    · rename_i hi
      cases h
      refine ⟨hmove rfl (by simp [hi]), fun j name' ino' left' hj => .inl ?_, .inl rfl⟩
      rcases work_cases rfl hj with ⟨-, heq⟩ | ⟨-, hj⟩
      · cases heq
      · exact ⟨left', hj⟩
    · rename_i name ino left hi
      cases h
      refine ⟨hmove rfl (by simp [hi]), fun j name' ino' left' hj => .inl ?_, .inl rfl⟩
      rcases work_cases rfl hj with ⟨-, heq⟩ | ⟨-, hj⟩
      · cases heq
      · exact ⟨left', hj⟩
    · cases h
  | openFile r =>
    simp only [step] at h
    split at h <;> cases h
    exact ⟨fun _ hi => hi, fun _ _ _ left hi => .inl ⟨left, hi⟩, .inl rfl⟩
  | read r n =>
    simp only [step] at h
    split at h
    · split at h <;> cases h
      exact ⟨fun _ hi => hi, fun _ _ _ left hi => .inl ⟨left, hi⟩, .inl rfl⟩
    · cases h
  | close r =>
    simp only [step] at h
    split at h
    · split at h <;> cases h
      exact ⟨fun _ hi => hi, fun _ _ _ left hi => .inl ⟨left, hi⟩, .inl rfl⟩
    · cases h

end Folder

end AtomicReplace
