/-
# A byte format of fixed-width integers, length prefixes and tags

General infrastructure: readers that consume a prefix of a byte list, and the
format of bincode's default configuration built from them: little-endian
fixed-width integers, `u64` length prefixes, one-byte option tags and `u32`
variant tags.

A writer is a function to `Option (List UInt8)`: serialisation may fail.  The relation
`Decodes r bs a` says that the reader `r` consumes exactly `bs`, whatever follows,
and returns `a`; each format comes with a `Decodes` rule for what its writer wrote.
`Reader.Steady` says that a reader does not look ahead; then it rejects every proper prefix
of what it reads (`Decodes.truncated`).
-/
import Mathlib

namespace ByteCodec

variable {α β : Type*}

/-! ## Readers -/

/-- A reader consumes a prefix of its input, or fails. -/
abbrev Reader (α : Type*) := List UInt8 → Option (α × List UInt8)

namespace Reader

/-- Read nothing. -/
def pure (a : α) : Reader α := fun bs => some (a, bs)

/-- Read one value, then another that may depend on it. -/
def bind (r : Reader α) (f : α → Reader β) : Reader β :=
  fun bs => (r bs).bind fun p => f p.1 p.2

/-- Read a value and transform it. -/
def map (f : α → β) (r : Reader α) : Reader β := r.bind fun a => pure (f a)

/-- Reject the input. -/
def fail : Reader α := fun _ => none

/-- Read `n` values in a row. -/
def times (r : Reader α) : ℕ → Reader (List α)
  | 0 => pure []
  | n + 1 => r.bind fun a => (times r n).map (a :: ·)

end Reader

/-- **`r` reads `bs` as `a`**: it consumes exactly `bs`, whatever comes after. -/
def Decodes (r : Reader α) (bs : List UInt8) (a : α) : Prop :=
  ∀ rest, r (bs ++ rest) = some (a, rest)

/-- Reading the bytes alone leaves nothing over. -/
theorem Decodes.eq_some {r : Reader α} {bs : List UInt8} {a : α} (h : Decodes r bs a) :
    r bs = some (a, []) := by
  simpa using h []

theorem decodes_pure (a : α) : Decodes (Reader.pure a) [] a := fun _ => rfl

/-- Reading in sequence. -/
theorem Decodes.bind {r : Reader α} {f : α → Reader β} {bs cs : List UInt8} {a : α} {b : β}
    (hr : Decodes r bs a) (hf : Decodes (f a) cs b) : Decodes (r.bind f) (bs ++ cs) b := by
  intro rest
  rw [List.append_assoc, Reader.bind, hr]
  exact hf rest

/-- Transforming what was read. -/
theorem Decodes.map {r : Reader α} {bs : List UInt8} {a : α} (hr : Decodes r bs a)
    (f : α → β) : Decodes (r.map f) bs (f a) := by
  have h := hr.bind (f := fun a => Reader.pure (f a)) (decodes_pure (f a))
  rwa [List.append_nil] at h

/-! ## Integers -/

/-- The `n` low bytes of `v`, least significant first. -/
def leBytes : ℕ → ℕ → List UInt8
  | 0, _ => []
  | n + 1, v => UInt8.ofNat v :: leBytes n (v / 256)

/-- The number whose bytes, least significant first, are given. -/
def leNat : List UInt8 → ℕ
  | [] => 0
  | b :: bs => b.toNat + 256 * leNat bs

@[simp] theorem length_leBytes (n v : ℕ) : (leBytes n v).length = n := by
  induction n generalizing v with
  | zero => rfl
  | succ n ih => simp [leBytes, ih]

/-- Writing keeps the low bytes. -/
theorem leNat_leBytes (n v : ℕ) : leNat (leBytes n v) = v % 256 ^ n := by
  induction n generalizing v with
  | zero => simp [leBytes, leNat, Nat.mod_one]
  | succ n ih =>
    rw [leBytes, leNat, ih, pow_succ', Nat.mod_mul]
    simp

/-- Read `n` bytes as a number. -/
def readNat (n : ℕ) : Reader ℕ := fun bs =>
  if n ≤ bs.length then some (leNat (bs.take n), bs.drop n) else none

theorem decodes_readNat {n v : ℕ} (hv : v < 256 ^ n) : Decodes (readNat n) (leBytes n v) v := by
  intro rest
  have hlen := length_leBytes n v
  rw [readNat, if_pos (by rw [List.length_append, hlen]; omega), List.take_left' hlen,
    List.drop_left' hlen, leNat_leBytes, Nat.mod_eq_of_lt hv]

/-! ## Byte strings -/

/-- Read `n` raw bytes. -/
def readBytes (n : ℕ) : Reader (List UInt8) := fun bs =>
  if n ≤ bs.length then some (bs.take n, bs.drop n) else none

theorem decodes_readBytes (bs : List UInt8) : Decodes (readBytes bs.length) bs bs := by
  intro rest
  rw [readBytes, if_pos (by simp), List.take_left, List.drop_left]

/-- Read an array of `n` bytes. -/
def readArray (n : ℕ) : Reader (Vector UInt8 n) := fun bs =>
  if h : n ≤ bs.length then
    some (⟨(bs.take n).toArray, by simp [h]⟩, bs.drop n)
  else none

theorem decodes_readArray {n : ℕ} (v : Vector UInt8 n) : Decodes (readArray n) v.toList v := by
  intro rest
  have hlen : v.toList.length = n := v.length_toList
  have hle : n ≤ (v.toList ++ rest).length := by
    rw [List.length_append, hlen]
    omega
  rw [readArray, dif_pos hle]
  congr 1
  refine Prod.ext ?_ (List.drop_left' hlen)
  apply Vector.toList_inj.mp
  simp [List.take_left' hlen]

/-! ## Length prefixes, options and variants -/

/-- The largest length a `u64` prefix can announce, plus one. -/
def lengthBound : ℕ := 256 ^ 8

/-- A byte string with its length.  No byte string of a real process is too long. -/
def writeBlob (bs : List UInt8) : Option (List UInt8) :=
  if bs.length < lengthBound then some (leBytes 8 bs.length ++ bs) else none

theorem writeBlob_isSome (bs : List UInt8) :
    (writeBlob bs).isSome = decide (bs.length < lengthBound) := by
  unfold writeBlob
  split <;> simp_all

def readBlob : Reader (List UInt8) := (readNat 8).bind readBytes

theorem decodes_readBlob {bs cs : List UInt8} (h : writeBlob bs = some cs) :
    Decodes readBlob cs bs := by
  unfold writeBlob at h
  split at h
  · rename_i hlen
    cases h
    exact (decodes_readNat hlen).bind (decodes_readBytes bs)
  · cases h

/-- A text is the byte string of its UTF-8 encoding. -/
def writeString (s : String) : Option (List UInt8) := writeBlob s.toByteArray.data.toList

def readString : Reader String := readBlob.bind fun bs =>
  match String.fromUTF8? bs.toByteArray with
  | some s => .pure s
  | none => .fail

theorem fromUTF8?_toByteArray (s : String) :
    String.fromUTF8? s.toByteArray.data.toList.toByteArray = some s := by
  have hbytes : s.toByteArray.data.toList.toByteArray = s.toByteArray := by
    apply ByteArray.ext
    apply Array.toList_inj.mp
    rw [List.toList_data_toByteArray]
  rw [hbytes, String.fromUTF8?, dif_pos s.isValidUTF8]
  rfl

theorem decodes_readString {s : String} {cs : List UInt8} (h : writeString s = some cs) :
    Decodes readString cs s := by
  have hrest : Decodes (match String.fromUTF8? s.toByteArray.data.toList.toByteArray with
      | some s => Reader.pure s
      | none => Reader.fail) [] s := by
    rw [fromUTF8?_toByteArray]
    exact decodes_pure s
  have hb := (decodes_readBlob h).bind (f := fun bs =>
    match String.fromUTF8? bs.toByteArray with
    | some s => Reader.pure s
    | none => Reader.fail) hrest
  rwa [List.append_nil] at hb

/-- An optional value, with a tag byte. -/
def writeOption (w : α → Option (List UInt8)) : Option α → Option (List UInt8)
  | none => some (leBytes 1 0)
  | some a => (w a).map (leBytes 1 1 ++ ·)

def readOption (r : Reader α) : Reader (Option α) := (readNat 1).bind fun
  | 0 => .pure none
  | 1 => r.map some
  | _ => .fail

theorem decodes_readOption {w : α → Option (List UInt8)} {r : Reader α} {o : Option α}
    {cs : List UInt8} (hr : ∀ a bs, o = some a → w a = some bs → Decodes r bs a)
    (h : writeOption w o = some cs) : Decodes (readOption r) cs o := by
  cases o with
  | none =>
    cases h
    exact (decodes_readNat (n := 1) (v := 0) (by decide)).bind (decodes_pure none)
  | some a =>
    obtain ⟨bs, hbs, rfl⟩ := Option.map_eq_some_iff.mp h
    exact (decodes_readNat (n := 1) (v := 1) (by decide)).bind ((hr a bs rfl hbs).map some)

/-- A value of an enumeration, after the number of its variant. -/
def writeVariant (i : ℕ) (payload : List UInt8) : List UInt8 := leBytes 4 i ++ payload

def readVariant (f : ℕ → Reader α) : Reader α := (readNat 4).bind f

theorem decodes_readVariant {f : ℕ → Reader α} {i : ℕ} {cs : List UInt8} {a : α}
    (hi : i < 256 ^ 4) (hf : Decodes (f i) cs a) :
    Decodes (readVariant f) (writeVariant i cs) a :=
  (decodes_readNat hi).bind hf

/-! ## Sequences -/

/-- The encodings of the elements, one after the other. -/
def writeAll (w : α → Option (List UInt8)) : List α → Option (List UInt8)
  | [] => some []
  | a :: l => (w a).bind fun x => (writeAll w l).map (x ++ ·)

/-- A sequence with its length. -/
def writeSeq (w : α → Option (List UInt8)) (l : List α) : Option (List UInt8) :=
  if l.length < lengthBound then (writeAll w l).map (leBytes 8 l.length ++ ·) else none

/-- The elements can be written one after the other if each can. -/
theorem writeAll_isSome_iff {w : α → Option (List UInt8)} {l : List α} :
    (writeAll w l).isSome = true ↔ ∀ a ∈ l, (w a).isSome = true := by
  induction l with
  | nil => simp [writeAll]
  | cons a l ih =>
    rw [writeAll, List.forall_mem_cons, ← ih]
    cases w a <;> simp

/-- A sequence can be written if its elements can and its length can be announced. -/
theorem writeSeq_isSome_iff {w : α → Option (List UInt8)} {l : List α}
    (hlen : l.length < lengthBound) :
    (writeSeq w l).isSome = true ↔ ∀ a ∈ l, (w a).isSome = true := by
  rw [writeSeq, if_pos hlen, Option.isSome_map, writeAll_isSome_iff]

def readSeq (r : Reader α) : Reader (List α) := (readNat 8).bind r.times

/-- Element by element: what the reader makes of each element, it makes of the
sequence. -/
theorem decodes_times {w : α → Option (List UInt8)} {r : Reader β} {f : α → β} {l : List α}
    {cs : List UInt8} (hr : ∀ a ∈ l, ∀ bs, w a = some bs → Decodes r bs (f a))
    (h : writeAll w l = some cs) : Decodes (r.times l.length) cs (l.map f) := by
  induction l generalizing cs with
  | nil =>
    cases h
    exact decodes_pure []
  | cons a l ih =>
    rw [writeAll, Option.bind_eq_some_iff] at h
    obtain ⟨x, hx, h⟩ := h
    obtain ⟨y, hy, rfl⟩ := Option.map_eq_some_iff.mp h
    have hrest := ih (fun b hb => hr b (List.mem_cons_of_mem _ hb)) hy
    exact (hr a List.mem_cons_self x hx).bind (hrest.map (f a :: ·))

theorem decodes_readSeq {w : α → Option (List UInt8)} {r : Reader β} {f : α → β} {l : List α}
    {cs : List UInt8} (hr : ∀ a ∈ l, ∀ bs, w a = some bs → Decodes r bs (f a))
    (h : writeSeq w l = some cs) : Decodes (readSeq r) cs (l.map f) := by
  unfold writeSeq at h
  split at h
  · rename_i hlen
    obtain ⟨bs, hbs, rfl⟩ := Option.map_eq_some_iff.mp h
    exact (decodes_readNat hlen).bind (decodes_times hr hbs)
  · cases h

/-! ## Input that ends early -/

/-- **The reader does not look ahead**: when it succeeds, it does the same on longer input, and
leaves what is added. -/
def Reader.Steady (r : Reader α) : Prop :=
  ∀ bs a rest, r bs = some (a, rest) → ∀ more, r (bs ++ more) = some (a, rest ++ more)

/-- **Truncated input is rejected**: a reader that does not look ahead fails on every proper
prefix of what it reads. -/
theorem Decodes.truncated {r : Reader α} {bs cs : List UInt8} {a : α} (hr : r.Steady)
    (h : Decodes r bs a) (hpart : cs <+: bs) (hne : cs ≠ bs) : r cs = none := by
  obtain ⟨more, rfl⟩ := hpart
  cases hcs : r cs with
  | none => rfl
  | some x =>
    -- what is missing would be left over
    have hlong := hr cs x.1 x.2 hcs more
    rw [h.eq_some, Option.some.injEq, Prod.mk.injEq] at hlong
    have hmore : more = [] := (List.append_eq_nil_iff.mp hlong.2.symm).2
    exact absurd (by rw [hmore, List.append_nil]) hne

namespace Reader

theorem steady_pure (a : α) : (pure a).Steady := by
  intro bs b rest h more
  cases h
  rfl

theorem steady_fail : (fail : Reader α).Steady := by
  intro bs b rest h
  cases h

theorem Steady.bind {r : Reader α} {f : α → Reader β} (hr : r.Steady)
    (hf : ∀ a, (f a).Steady) : (r.bind f).Steady := by
  intro bs b rest h more
  obtain ⟨⟨a, mid⟩, ha, hb⟩ := Option.bind_eq_some_iff.mp h
  rw [Reader.bind, hr bs a mid ha more, Option.bind_some]
  exact hf a mid b rest hb more

theorem Steady.map {r : Reader α} (hr : r.Steady) (f : α → β) : (r.map f).Steady :=
  hr.bind fun a => steady_pure (f a)

/-- By induction on the number of values. -/
theorem Steady.times {r : Reader α} (hr : r.Steady) (n : ℕ) : (r.times n).Steady := by
  induction n with
  | zero => exact steady_pure []
  | succ n ih => exact hr.bind fun a => ih.map (a :: ·)

end Reader

open Reader

theorem steady_readBytes (n : ℕ) : (readBytes n).Steady := by
  intro bs v rest h more
  unfold readBytes at h ⊢
  split at h
  · rename_i hlen
    cases h
    rw [if_pos (by rw [List.length_append]; omega), List.take_append_of_le_length hlen,
      List.drop_append_of_le_length hlen]
  · cases h

/-- A number is read as its bytes. -/
theorem readNat_eq (n : ℕ) : readNat n = (readBytes n).map leNat := by
  funext bs
  simp only [readNat, readBytes, Reader.map, Reader.bind]
  split <;> rfl

theorem steady_readNat (n : ℕ) : (readNat n).Steady := by
  rw [readNat_eq]
  exact (steady_readBytes n).map leNat

theorem steady_readArray (n : ℕ) : (readArray n).Steady := by
  intro bs v rest h more
  unfold readArray at h ⊢
  split at h
  · rename_i hlen
    cases h
    rw [dif_pos (by rw [List.length_append]; omega)]
    simp only [List.take_append_of_le_length hlen, List.drop_append_of_le_length hlen]
  · cases h

theorem steady_readString : readString.Steady := by
  refine ((steady_readNat 8).bind steady_readBytes).bind fun bs => ?_
  split
  · exact steady_pure _
  · exact steady_fail

theorem steady_readOption {r : Reader α} (hr : r.Steady) : (readOption r).Steady := by
  refine (steady_readNat 1).bind fun tag => ?_
  split
  · exact steady_pure none
  · exact hr.map some
  · exact steady_fail

theorem steady_readVariant {f : ℕ → Reader α} (hf : ∀ i, (f i).Steady) :
    (readVariant f).Steady :=
  (steady_readNat 4).bind hf

theorem steady_readSeq {r : Reader α} (hr : r.Steady) : (readSeq r).Steady :=
  (steady_readNat 8).bind hr.times

/-! ## Readers that agree, and what a reader rejects -/

/-- `r'` reads whatever `r` reads, as its image under `f`. -/
def Reader.Follows (r' : Reader β) (f : α → β) (r : Reader α) : Prop :=
  ∀ bs a rest, r bs = some (a, rest) → r' bs = some (f a, rest)

/-- The reader reads nothing from what begins with `bs`. -/
def Reader.Rejects (r : Reader α) (bs : List UInt8) : Prop := ∀ rest, r (bs ++ rest) = none

section

variable {γ δ : Type*}

theorem Reader.Follows.refl (r : Reader α) : r.Follows id r := fun _ _ _ h => h

theorem Reader.Follows.bind {r' : Reader β} {r : Reader α} {f : α → β} {k' : β → Reader δ}
    {k : α → Reader γ} {g : γ → δ} (hr : r'.Follows f r) (hk : ∀ a, (k' (f a)).Follows g (k a)) :
    (r'.bind k').Follows g (r.bind k) := by
  intro bs c rest h
  obtain ⟨⟨a, rest'⟩, hfirst, hsecond⟩ := Option.bind_eq_some_iff.mp h
  rw [Reader.bind, hr bs a rest' hfirst]
  exact hk a rest' c rest hsecond

theorem Reader.Follows.map {r' : Reader β} {r : Reader α} {f : α → β} {p' : β → δ} {p : α → γ}
    {g : γ → δ} (hr : r'.Follows f r) (hp : ∀ a, p' (f a) = g (p a)) :
    (r'.map p').Follows g (r.map p) := by
  refine hr.bind fun a bs c rest h => ?_
  cases h
  rw [Reader.pure, hp]

theorem Reader.Follows.times {r' : Reader β} {r : Reader α} {f : α → β} (hr : r'.Follows f r)
    (n : ℕ) : (r'.times n).Follows (List.map f) (r.times n) := by
  induction n with
  | zero =>
    intro bs l rest h
    cases h
    rfl
  | succ n ih => exact hr.bind fun a => ih.map fun l => rfl

theorem Reader.Follows.readSeq {r' : Reader β} {r : Reader α} {f : α → β} (hr : r'.Follows f r) :
    (readSeq r').Follows (List.map f) (readSeq r) :=
  (Reader.Follows.refl (readNat 8)).bind fun n => hr.times n

theorem Reader.Rejects.bind {r : Reader α} {k : α → Reader γ} {bs : List UInt8}
    (hr : r.Rejects bs) : (r.bind k).Rejects bs := by
  intro rest
  rw [Reader.bind, hr rest]
  rfl

theorem Decodes.bind_rejects {r : Reader α} {k : α → Reader γ} {bs cs : List UInt8} {a : α}
    (hr : Decodes r bs a) (hk : (k a).Rejects cs) : (r.bind k).Rejects (bs ++ cs) := by
  intro rest
  rw [List.append_assoc, Reader.bind, hr (cs ++ rest)]
  exact hk rest

/-- What follows does not make up for what is rejected. -/
theorem Reader.Rejects.append {r : Reader α} {bs : List UInt8} (hr : r.Rejects bs)
    (cs : List UInt8) : r.Rejects (bs ++ cs) := by
  intro rest
  rw [List.append_assoc]
  exact hr (cs ++ rest)

/-- A list is rejected when one of its entries is, and those before it are read. -/
theorem rejects_times {w : α → Option (List UInt8)} {r : Reader β} {l : List α}
    {cs : List UInt8} (hr : ∀ a ∈ l, ∀ bs, w a = some bs → (∃ b, Decodes r bs b) ∨ r.Rejects bs)
    (hbad : ∃ a ∈ l, ∀ bs, w a = some bs → r.Rejects bs) (h : writeAll w l = some cs) :
    (r.times l.length).Rejects cs := by
  induction l generalizing cs with
  | nil =>
    obtain ⟨a, ha, -⟩ := hbad
    cases ha
  | cons a l ih =>
    obtain ⟨bs, hbs, hrest⟩ := Option.bind_eq_some_iff.mp h
    obtain ⟨cs', hcs', rfl⟩ := Option.map_eq_some_iff.mp hrest
    rcases hr a List.mem_cons_self bs hbs with ⟨b, hdecodes⟩ | hrejects
    · refine hdecodes.bind_rejects (Reader.Rejects.bind (ih ?_ ?_ hcs'))
      · exact fun a' ha' => hr a' (List.mem_cons_of_mem a ha')
      · obtain ⟨a', ha', hbad'⟩ := hbad
        rcases List.mem_cons.mp ha' with rfl | hmem
        -- an entry cannot be both read and rejected
        · have hnone := hbad' bs hbs []
          rw [hdecodes []] at hnone
          cases hnone
        · exact ⟨a', hmem, hbad'⟩
    · exact (Reader.Rejects.bind hrejects).append cs'

theorem rejects_readSeq {w : α → Option (List UInt8)} {r : Reader β} {l : List α}
    {cs : List UInt8} (hr : ∀ a ∈ l, ∀ bs, w a = some bs → (∃ b, Decodes r bs b) ∨ r.Rejects bs)
    (hbad : ∃ a ∈ l, ∀ bs, w a = some bs → r.Rejects bs) (h : writeSeq w l = some cs) :
    (readSeq r).Rejects cs := by
  unfold writeSeq at h
  split at h
  · rename_i hlen
    obtain ⟨bs, hbs, rfl⟩ := Option.map_eq_some_iff.mp h
    exact (decodes_readNat hlen).bind_rejects (rejects_times hr hbad hbs)
  · cases h

end

/-! ## Tables of variants -/

/-- The variants are read by the readers of a table, in its order. -/
def readTable (t : List (Reader α)) : Reader α := readVariant fun i => (t[i]?).getD .fail

/-- **Variants added at the end** change nothing of what was read before. -/
theorem follows_readTable (f : α → β) (t : List (Reader α)) (more : List (Reader β)) :
    (readTable (t.map (Reader.map f) ++ more)).Follows f (readTable t) := by
  unfold readTable readVariant
  refine (Reader.Follows.refl (readNat 4)).bind fun i => ?_
  cases hi : t[i]? with
  | none =>
    intro bs a rest h
    cases h
  | some r =>
    have hlt : i < (t.map (Reader.map f)).length := by
      rw [List.length_map]
      exact (List.getElem?_eq_some_iff.mp hi).1
    rw [id, List.getElem?_append_left hlt, List.getElem?_map, hi]
    intro bs a rest h
    have h : r bs = some (a, rest) := h
    show (r bs).bind _ = _
    rw [h]
    rfl

/-- A variant that the table does not have is rejected. -/
theorem rejects_readTable {t : List (Reader α)} {i : ℕ} (hi : i < 256 ^ 4) (hlen : t.length ≤ i)
    (payload : List UInt8) : (readTable t).Rejects (writeVariant i payload) := by
  unfold readTable readVariant writeVariant
  refine (decodes_readNat hi).bind_rejects fun rest => ?_
  rw [List.getElem?_eq_none hlen]
  rfl

/-- The variants at the beginning of a table are read by themselves as in the whole table. -/
theorem decodes_readTable_take {t : List (Reader α)} {i k : ℕ} {payload : List UInt8} {a : α}
    (hi : i < 256 ^ 4) (hik : i < k) (h : Decodes (readTable t) (writeVariant i payload) a) :
    Decodes (readTable (t.take k)) (writeVariant i payload) a := by
  intro rest
  have hread := h rest
  unfold readTable readVariant writeVariant Reader.bind at hread ⊢
  rw [List.append_assoc, decodes_readNat hi (payload ++ rest), Option.bind_some] at hread ⊢
  dsimp only at hread ⊢
  rw [List.getElem?_take_of_lt hik]
  exact hread

end ByteCodec
