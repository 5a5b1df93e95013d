/-!
# Pieces of a text, counted in bytes
-/

namespace Sift.Text

/-- The text from the byte `start` up to, but without, the byte `stop`. There is none if one of the
two is within a character or past the end, or if they are the wrong way round. -/
def slice? (s : String) (start stop : Nat) : Option String := do
  let first ← s.pos? ⟨start⟩
  let last ← s.pos? ⟨stop⟩
  (s.slice? first last).map String.Slice.copy

theorem pos?_eq_some_iff {s : String} {n : String.Pos.Raw} {p : s.Pos} :
    s.pos? n = some p ↔ p.offset = n := by
  constructor
  · intro h
    simp only [String.pos?, String.Slice.pos?, Option.map_eq_some_iff,
      Option.dite_none_right_eq_some] at h
    obtain ⟨_, ⟨_, h⟩, rfl⟩ := h
    cases h
    rfl
  · rintro rfl
    have hvalid : p.offset.IsValidForSlice s.toSlice := p.toSlice.isValidForSlice
    simp [String.pos?, String.Slice.pos?, hvalid, String.Pos.ext_iff]

theorem map_copy_slice?_eq_some_iff {s t : String} {p q : s.Pos} :
    (s.slice? p q).map String.Slice.copy = some t ↔
      ∃ a b, p.Splits a (t ++ b) ∧ q.Splits (a ++ t) b := by
  rw [← String.copy_slice_eq_iff_splits, String.slice?]
  split
  · next h => simp [h]
  · next h => simp [h]

/-- A slice is what stands between the bytes before it and the bytes after it. -/
theorem slice?_eq_some_iff {s t : String} {start stop : Nat} :
    slice? s start stop = some t ↔
      ∃ a b, s = a ++ t ++ b ∧ a.utf8ByteSize = start ∧ (a ++ t).utf8ByteSize = stop := by
  simp only [slice?, Option.bind_eq_bind, Option.bind_eq_some_iff, pos?_eq_some_iff,
    map_copy_slice?_eq_some_iff]
  constructor
  · rintro ⟨p, hp, q, hq, a, b, ha, hb⟩
    rw [ha.offset_eq_rawEndPos] at hp
    rw [hb.offset_eq_rawEndPos] at hq
    exact ⟨a, b, hb.eq_append, congrArg String.Pos.Raw.byteIdx hp,
      congrArg String.Pos.Raw.byteIdx hq⟩
  · rintro ⟨a, b, rfl, rfl, rfl⟩
    have hfirst := String.Pos.splits_ofEqAppend (String.append_assoc : a ++ t ++ b = _)
    have hlast := String.Pos.splits_ofEqAppend (rfl : a ++ t ++ b = a ++ t ++ b)
    exact ⟨_, hfirst.offset_eq_rawEndPos, _, hlast.offset_eq_rawEndPos, a, b, hfirst, hlast⟩

example : slice? "é" 1 2 = none := by decide +kernel

end Sift.Text
