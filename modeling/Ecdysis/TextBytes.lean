/-
# Byte strings that are texts

General infrastructure: which byte strings are UTF-8 encodings, and how this notion goes
with cutting a byte string at an ASCII byte.  No byte of a longer encoding is an ASCII byte,
so a cut never falls inside a character, and a byte string is a text exactly when all its
segments are.
-/
import Mathlib

namespace TextBytes

/-- The bytes are the UTF-8 encoding of some text. -/
def IsText (bs : List UInt8) : Prop := bs.toByteArray.IsValidUTF8

instance (bs : List UInt8) : Decidable (IsText bs) :=
  inferInstanceAs (Decidable bs.toByteArray.IsValidUTF8)

/-- A text is the concatenation of the encodings of its characters. -/
theorem isText_iff {bs : List UInt8} :
    IsText bs ↔ ∃ cs : List Char, bs = cs.flatMap String.utf8EncodeChar := by
  constructor
  · rintro ⟨cs, hcs⟩
    refine ⟨cs, ?_⟩
    have hdata := congrArg (fun b => b.data.toList) hcs
    simpa [List.utf8Encode] using hdata
  · rintro ⟨cs, rfl⟩
    exact ⟨cs, rfl⟩

theorem IsText.nil : IsText [] := isText_iff.mpr ⟨[], rfl⟩

theorem IsText.append {bs bs' : List UInt8} (h : IsText bs) (h' : IsText bs') :
    IsText (bs ++ bs') := by
  obtain ⟨cs, rfl⟩ := isText_iff.mp h
  obtain ⟨cs', rfl⟩ := isText_iff.mp h'
  exact isText_iff.mpr ⟨cs ++ cs', by rw [List.flatMap_append]⟩

/-- The encoding of one character. -/
theorem isText_utf8EncodeChar (c : Char) : IsText (String.utf8EncodeChar c) :=
  isText_iff.mpr ⟨[c], by simp⟩

/-- **An ASCII byte is a character of its own**: it occurs in no longer encoding. -/
theorem utf8EncodeChar_eq_singleton {b : UInt8} {c : Char} (hb : b < 128)
    (hmem : b ∈ String.utf8EncodeChar c) : String.utf8EncodeChar c = [b] := by
  have hlt : b.toNat < 128 := UInt8.lt_iff_toNat_lt.mp hb
  have hne : ∀ n, 128 ≤ n % 256 → b ≠ UInt8.ofNat n := by
    rintro n hn rfl
    simp only [UInt8.toNat_ofNat'] at hlt
    omega
  unfold String.utf8EncodeChar at hmem ⊢
  simp only at hmem ⊢
  split at hmem
  · rename_i hv
    rw [if_pos hv]
    simp only [List.mem_singleton] at hmem
    rw [hmem]
  · exfalso
    split at hmem
    · simp only [List.mem_cons, List.not_mem_nil, or_false] at hmem
      rcases hmem with h | h <;> exact hne _ (by omega) h
    · split at hmem
      · simp only [List.mem_cons, List.not_mem_nil, or_false] at hmem
        rcases hmem with h | h | h <;> exact hne _ (by omega) h
      · simp only [List.mem_cons, List.not_mem_nil, or_false] at hmem
        rcases hmem with h | h | h | h <;> exact hne _ (by omega) h

/-! ## Segments -/

section Segments

variable {α : Type*} [BEq α] [LawfulBEq α]

/-- What has no separator goes to the first segment. -/
theorem splitOn_append_of_not_mem {a : α} {l : List α} (h : a ∉ l) (l' : List α) :
    (l ++ l').splitOn a = (l'.splitOn a).modifyHead (l ++ ·) := by
  induction l with
  | nil =>
    rw [List.nil_append]
    cases l'.splitOn a <;> rfl
  | cons b l ih =>
    have hb : ¬(b == a) = true := fun heq => h (eq_of_beq heq ▸ List.mem_cons_self)
    have hrest := ih fun hmem => h (List.mem_cons_of_mem b hmem)
    rw [List.cons_append, List.splitOn_cons_eq_if_modifyHead, if_neg hb, hrest]
    cases l'.splitOn a <;> rfl

/-- A separator ends the first segment. -/
theorem splitOn_cons_self (a : α) (l : List α) : (a :: l).splitOn a = [] :: l.splitOn a := by
  rw [List.splitOn_cons_eq_if_modifyHead, if_pos BEq.rfl]

end Segments

/-- The segments of a text are texts: no character is cut. -/
theorem isText_of_mem_splitOn {b : UInt8} (hb : b < 128) {cs : List Char} {s : List UInt8}
    (hs : s ∈ (cs.flatMap String.utf8EncodeChar).splitOn b) : IsText s := by
  induction cs generalizing s with
  | nil =>
    rw [List.flatMap_nil, List.splitOn_nil, List.mem_singleton] at hs
    rw [hs]
    exact .nil
  | cons c cs ih =>
    rw [List.flatMap_cons] at hs
    by_cases hmem : b ∈ String.utf8EncodeChar c
    -- the character is the separator
    · rw [utf8EncodeChar_eq_singleton hb hmem, List.singleton_append, splitOn_cons_self,
        List.mem_cons] at hs
      rcases hs with rfl | hs
      · exact .nil
      · exact ih hs
    -- the character goes to the first segment
    · rw [splitOn_append_of_not_mem hmem] at hs
      cases hsplit : (cs.flatMap String.utf8EncodeChar).splitOn b with
      | nil => simp [hsplit] at hs
      | cons t ts =>
        rw [hsplit, List.modifyHead_cons, List.mem_cons] at hs
        rcases hs with rfl | hs
        · exact (isText_utf8EncodeChar c).append (ih (by simp [hsplit]))
        · exact ih (by simp [hsplit, hs])

/-- Texts joined by a text are a text. -/
theorem isText_intercalate {sep : List UInt8} (hsep : IsText sep) {l : List (List UInt8)}
    (hl : ∀ s ∈ l, IsText s) : IsText (sep.intercalate l) := by
  induction l with
  | nil => exact .nil
  | cons s l ih =>
    have hs := hl s List.mem_cons_self
    have hrest := ih fun t ht => hl t (List.mem_cons_of_mem s ht)
    cases l with
    | nil => simpa using hs
    | cons t l =>
      rw [List.intercalate_cons_cons]
      exact (hs.append hsep).append hrest

/-- An ASCII byte alone is a text. -/
theorem isText_singleton {b : UInt8} (hb : b < 128) : IsText [b] := by
  have hlt : b.toNat < 128 := UInt8.lt_iff_toNat_lt.mp hb
  refine isText_iff.mpr ⟨[Char.ofNat b.toNat], ?_⟩
  have hval : (Char.ofNat b.toNat).val.toNat = b.toNat := by
    have hvalid : b.toNat.isValidChar := Or.inl (by omega)
    simp [Char.ofNat, hvalid, Char.ofNatAux]
  simp [String.utf8EncodeChar, hval, Nat.le_of_lt_succ hlt]

/-- **A byte string is a text exactly when its segments are**, between the occurrences of an
ASCII byte. -/
theorem isText_iff_splitOn {b : UInt8} (hb : b < 128) (bs : List UInt8) :
    IsText bs ↔ ∀ s ∈ bs.splitOn b, IsText s := by
  constructor
  · intro h s hs
    obtain ⟨cs, rfl⟩ := isText_iff.mp h
    exact isText_of_mem_splitOn hb hs
  · intro h
    have hjoin : [b].intercalate (bs.splitOn b) = bs := List.intercalate_splitOn b
    rw [← hjoin]
    exact isText_intercalate (isText_singleton hb) h

end TextBytes
