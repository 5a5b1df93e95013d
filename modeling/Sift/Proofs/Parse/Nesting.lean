import Sift.Proofs.Parse.Phrase

/-!
# Open parentheses

How many parentheses stand open after some lexemes, and lexemes that leave none open.
-/

namespace Sift

/-- How many parentheses stand open after the lexemes. -/
def opened (ts : List Lexeme) : Int :=
  (ts.countP fun w => w.kind = .openParen) - (ts.countP fun w => w.kind = .closeParen)

variable {ts us : List Lexeme} {d : Nat}

@[simp] theorem opened_nil : opened [] = 0 := rfl

@[simp] theorem opened_append : opened (ts ++ us) = opened ts + opened us := by
  simp only [opened, List.countP_append]
  omega

@[simp] theorem opened_openParen (x : String) : opened [⟨.openParen, x⟩] = 1 := by
  simp [opened]

@[simp] theorem opened_closeParen (x : String) : opened [⟨.closeParen, x⟩] = -1 := by
  simp [opened]

theorem opened_of_kind {w : Lexeme} (h : w.kind ∉ [Kind.openParen, .closeParen]) :
    opened [w] = 0 := by
  simp only [List.mem_cons, List.not_mem_nil, or_false, not_or] at h
  simp [opened, h.1, h.2]

theorem opened_eq_zero (h : ∀ w ∈ ts, w.kind ∉ [Kind.openParen, .closeParen]) : opened ts = 0 := by
  induction ts with
  | nil => rfl
  | cons w ts ih =>
      obtain ⟨hw, hts⟩ := List.forall_mem_cons.1 h
      rw [← List.singleton_append, opened_append, opened_of_kind hw, ih hts, zero_add]

/-- As many parentheses are closed as are opened, no more than `d` of them stand open at once, and
the input does not end. -/
structure Nested (d : Nat) (ts : List Lexeme) : Prop where
  opened_eq : opened ts = 0
  opened_le : ∀ us, us <+: ts → opened us ≤ d
  kind_ne_eof : ∀ w ∈ ts, w.kind ≠ .eof

namespace Nested

theorem nil : Nested d [] where
  opened_eq := rfl
  opened_le us h := by
    rw [List.prefix_nil.1 h, opened_nil]
    exact Int.natCast_nonneg d
  kind_ne_eof := by simp

theorem mono {d' : Nat} (h : Nested d ts) (hd : d ≤ d') : Nested d' ts where
  opened_eq := h.opened_eq
  opened_le us hus := (h.opened_le us hus).trans (Int.ofNat_le.2 hd)
  kind_ne_eof := h.kind_ne_eof

theorem one {w : Lexeme} (h : w.kind ∉ [Kind.openParen, .closeParen, .eof]) : Nested d [w] := by
  have hparens : w.kind ∉ [Kind.openParen, .closeParen] := fun hk => h (by simp_all)
  constructor
  · exact opened_of_kind hparens
  · intro us hus
    rcases List.prefix_cons_iff.1 hus with rfl | ⟨vs, rfl, hvs⟩
    · exact Int.natCast_nonneg d
    · rw [List.prefix_nil.1 hvs, opened_of_kind hparens]
      exact Int.natCast_nonneg d
  · simp_all

theorem append (hts : Nested d ts) (hus : Nested d us) : Nested d (ts ++ us) where
  opened_eq := by rw [opened_append, hts.opened_eq, hus.opened_eq]; rfl
  opened_le vs hvs := by
    rcases List.prefix_or_prefix_of_prefix hvs (List.prefix_append ts us) with h | ⟨ws, rfl⟩
    · exact hts.opened_le vs h
    · rw [opened_append, hts.opened_eq, zero_add]
      exact hus.opened_le ws ((List.prefix_append_right_inj ts).1 hvs)
  kind_ne_eof := List.forall_mem_append.2 ⟨hts.kind_ne_eof, hus.kind_ne_eof⟩

theorem inParens {x y : String} (h : Nested d ts) :
    Nested (d + 1) (⟨.openParen, x⟩ :: (ts ++ [⟨.closeParen, y⟩])) := by
  have hopen : ∀ us : List Lexeme, opened (⟨.openParen, x⟩ :: us) = 1 + opened us := by
    intro us
    rw [← List.singleton_append, opened_append, opened_openParen]
  constructor
  · rw [hopen, opened_append, h.opened_eq, opened_closeParen]
    rfl
  · intro us hus
    rcases List.prefix_cons_iff.1 hus with rfl | ⟨vs, rfl, hvs⟩
    · exact Int.natCast_nonneg _
    · rw [hopen]
      rcases List.prefix_concat_iff.1 hvs with rfl | hvs
      · rw [opened_append, h.opened_eq, opened_closeParen]
        omega
      · have := h.opened_le vs hvs
        omega
  · simpa [or_imp, forall_and] using h.kind_ne_eof

end Nested

end Sift
