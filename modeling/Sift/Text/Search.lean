/-!
# Texts within texts
-/

namespace Sift.Text

/-- Whether `t` stands somewhere in the text. -/
def occursIn (t : List Char) : List Char → Bool
  | [] => t.isEmpty
  | c :: r => t.isPrefixOf (c :: r) || occursIn t r

theorem occursIn_iff {t s : List Char} : occursIn t s ↔ t <:+: s := by
  induction s with
  | nil => simp [occursIn]
  | cons c r ih => simp [occursIn, ih, List.infix_cons_iff]

end Sift.Text
