import Mathlib.Data.String.Basic
import Mathlib.Tactic.SplitIfs

/-!
# Texts as bytes

UTF-8 keeps the order of texts and what stands within them.
-/

namespace Sift.Text

open String (utf8EncodeChar)

/-- The bytes of a text in UTF-8. -/
def bytes (s : String) : List UInt8 := s.toUTF8.data.toList

/-- The numbers of the characters. -/
def codePoints (s : String) : List Nat := s.toList.map Char.toNat

theorem bytes_eq (s : String) : bytes s = s.toList.flatMap utf8EncodeChar := by
  rw [bytes, String.toUTF8_eq_toByteArray, ← String.utf8Encode_toList, List.utf8Encode,
    List.toList_data_toByteArray]

/-! ## Order -/

theorem ofNat_cons_lt {m n : Nat} (hm : m < 256) (hn : n < 256) (s t : List UInt8) :
    UInt8.ofNat m :: s < UInt8.ofNat n :: t ↔ m < n ∨ m = n ∧ s < t := by
  rw [List.cons_lt_cons_iff, UInt8.lt_iff_toNat_lt, ← UInt8.toNat_inj,
    UInt8.toNat_ofNat_of_lt' hm, UInt8.toNat_ofNat_of_lt' hn]

/-- Of two characters the lesser one has the lesser bytes, whatever follows them. -/
theorem encode_append_lt {c d : Char} (h : c < d) (s t : List UInt8) :
    utf8EncodeChar c ++ s < utf8EncodeChar d ++ t := by
  have hlt : c.val.toNat < d.val.toNat := h
  have hd : d.val.toNat < 0x110000 := by
    rcases d.valid with hd | ⟨-, hd⟩ <;> omega
  simp only [utf8EncodeChar]
  generalize c.val.toNat = m at *
  generalize d.val.toNat = n at *
  have hdiv (k : Nat) : k / 4096 = k / 64 / 64 ∧ k / 262144 = k / 64 / 64 / 64 := by omega
  simp only [hdiv]
  split_ifs <;>
    simp (disch := omega) only [List.cons_append, List.nil_append, ofNat_cons_lt] <;> omega

theorem flatMap_encode_lt {s t : List Char} (h : s < t) :
    s.flatMap utf8EncodeChar < t.flatMap utf8EncodeChar := by
  induction h with
  | @nil c t =>
      obtain ⟨b, r, hb⟩ := List.exists_cons_of_ne_nil (String.utf8EncodeChar_ne_nil (c := c))
      simp [hb]
  | cons _ ih => exact List.append_left_lt ih
  | rel h => exact encode_append_lt h _ _

/-- What keeps the order of texts also reflects it. -/
theorem lt_iff_of_mono {α : Type} [LT α] [Std.Asymm fun a b : α => a < b]
    {f : String → List α} (hf : ∀ s t, s < t → f s < f t) {s t : String} : f s < f t ↔ s < t := by
  refine ⟨fun h => ?_, hf s t⟩
  rcases lt_trichotomy s t with hlt | rfl | hgt
  · exact hlt
  · exact absurd h (List.lt_irrefl _)
  · exact absurd h (List.lt_asymm (hf t s hgt))

theorem bytes_lt_iff {s t : String} : bytes s < bytes t ↔ s < t :=
  lt_iff_of_mono fun s t h => by
    rw [bytes_eq, bytes_eq]
    exact flatMap_encode_lt (String.lt_iff.1 h)

theorem codePoints_lt_iff {s t : String} : codePoints s < codePoints t ↔ s < t :=
  lt_iff_of_mono (f := codePoints) fun _ _ h =>
    List.map_lt (f := Char.toNat) (fun _ _ hlt => hlt) (String.lt_iff.1 h)

theorem bytes_inj {s t : String} : bytes s = bytes t ↔ s = t := by
  refine ⟨fun h => ?_, congrArg bytes⟩
  exact String.toByteArray_inj.1 (ByteArray.ext (Array.toList_inj.1 h))

/-! ## Texts within texts -/

/-- A byte that begins a character within the bytes of one is the first of them. -/
theorem eq_nil_of_encode {c : Char} {p r : List UInt8} {b : UInt8}
    (h : utf8EncodeChar c = p ++ b :: r) (hb : b.IsUTF8FirstByte) : p = [] := by
  have hlt : p.length < (utf8EncodeChar c).length := by simp [h]
  have hget : (utf8EncodeChar c)[p.length] = b := by simp [h]
  exact List.length_eq_zero_iff.1 (UInt8.isUTF8FirstByte_getElem_utf8EncodeChar.1 (hget ▸ hb))

theorem exists_first_byte (c : Char) :
    ∃ b r, utf8EncodeChar c = b :: r ∧ b.IsUTF8FirstByte := by
  obtain ⟨b, r, h⟩ := List.exists_cons_of_ne_nil (String.utf8EncodeChar_ne_nil (c := c))
  have hlt : 0 < (utf8EncodeChar c).length := by simp [h]
  have hb : (utf8EncodeChar c)[0].IsUTF8FirstByte :=
    UInt8.isUTF8FirstByte_getElem_utf8EncodeChar.2 rfl
  exact ⟨b, r, h, by simpa [h] using hb⟩

theorem isPrefix_of_flatMap_encode {s t : List Char} {q : List UInt8}
    (h : t.flatMap utf8EncodeChar ++ q = s.flatMap utf8EncodeChar) : t <+: s := by
  apply List.isPrefix_of_utf8Encode_append_eq_utf8Encode q.toByteArray
  rw [List.utf8Encode, List.utf8Encode, ← h, List.toByteArray_append]

/-- The bytes of a text that stand within those of another one do not begin within a character. -/
theorem isInfix_of_flatMap_encode {s t : List Char} {p q : List UInt8}
    (h : p ++ (t.flatMap utf8EncodeChar ++ q) = s.flatMap utf8EncodeChar) : t <:+: s := by
  cases t with
  | nil => exact List.nil_infix
  | cons d t =>
      obtain ⟨b, r, hd, hb⟩ := exists_first_byte d
      induction s generalizing p with
      | nil => simp [hd] at h
      | cons c s ih =>
          have hcons := h.trans List.flatMap_cons
          rcases List.append_eq_append_iff.1 hcons with ⟨m, hm, hrest⟩ | ⟨m, rfl, hrest⟩
          · cases m with
            | nil =>
                have hs := ih (p := []) hrest
                exact hs.trans (List.suffix_cons c s).isInfix
            | cons b' m =>
                obtain rfl : b = b' := by
                  rw [List.flatMap_cons, hd] at hrest
                  exact (List.cons.inj hrest).1
                obtain rfl := eq_nil_of_encode hm hb
                exact (isPrefix_of_flatMap_encode h).isInfix
          · exact (ih hrest.symm).trans (List.suffix_cons c s).isInfix

theorem bytes_infix_iff {s t : String} : bytes t <:+: bytes s ↔ t.toList <:+: s.toList := by
  rw [bytes_eq, bytes_eq]
  constructor
  · rintro ⟨p, q, h⟩
    rw [List.append_assoc] at h
    exact isInfix_of_flatMap_encode h
  · rintro ⟨p, q, h⟩
    exact ⟨p.flatMap utf8EncodeChar, q.flatMap utf8EncodeChar, by rw [← h]; simp⟩

end Sift.Text
