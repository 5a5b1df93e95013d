import Sift.Proofs.Filter.Rendering

/-!
# Reading back canonical texts

The trees that some text has are the writable ones that are not too deep, and each of them is read
from its canonical text.
-/

namespace Sift

open Grammar

namespace Filter

variable {f : Filter} {text : String}

theorem parse_render_of_writable (h : Writable f) (hdepth : depth f ≤ maxDepth) :
    parse (render f) = .ok f := by
  obtain ⟨ws, hws, hspell⟩ := exists_spelled f h
  have hread := hspell.reads Boundary.nil (.nil : filter.Reads [] [])
  simp only [List.append_nil] at hread
  refine parse_eq_ok_iff.2 ⟨ws, ?_, hws, hdepth, hspell.readable⟩
  rwa [render, String.toList_ofList]

theorem writable_of_parse (h : parse text = .ok f) : Writable f ∧ depth f ≤ maxDepth := by
  obtain ⟨ws, hreads, hws, hdepth, hread⟩ := parse_eq_ok_iff.1 h
  exact ⟨writable_of_derived f hws fun w hw => ⟨hreads.proper w hw, hread w hw⟩, hdepth⟩

/-- The trees that have a text are those that can be written and are not too deep. -/
theorem exists_text_iff :
    (∃ text, parse text = .ok f) ↔ Writable f ∧ depth f ≤ maxDepth := by
  constructor
  · rintro ⟨text, h⟩
    exact writable_of_parse h
  · rintro ⟨h, hdepth⟩
    exact ⟨render f, parse_render_of_writable h hdepth⟩

/-- What a text is read as is read from its own canonical text as well. -/
theorem parse_render (h : parse text = .ok f) : parse (render f) = .ok f := by
  obtain ⟨hwritable, hdepth⟩ := writable_of_parse h
  exact parse_render_of_writable hwritable hdepth

theorem parse_render_of_path :
    let f : Filter := [[.mk true (.compare (.plain (.ident "a") [.value (.int 7)]) .has
      (.group [[.mk false (.test (.plain (.string "x") []))]]))]]
    parse "NOT a . 07:('x')" = .ok f ∧ render f = "-a. 7:(\"x\")" ∧ parse (render f) = .ok f := by
  intro f
  let ws : List Lexeme := [⟨.notWord, "NOT"⟩, ⟨.ident, "a"⟩, ⟨.dot, "."⟩, ⟨.int, "07"⟩,
    ⟨.comparison, ":"⟩, ⟨.openParen, "("⟩, ⟨.string, "x"⟩, ⟨.closeParen, ")"⟩]
  have hws : filter.Reads "NOT a . 07:('x')".toList ws :=
    (Lexer.reads_iff_stream (l := .ofText .filter "NOT a . 07:('x')")).2
      ⟨⟨16, 1, 17⟩, by decide +kernel, by decide +kernel⟩
  have hleft : Comparable.Derived [⟨.ident, "a"⟩, ⟨.dot, "."⟩, ⟨.int, "07"⟩]
      (.plain (.ident "a") [.value (.int 7)]) := by
    have hseven : Field.Derived [⟨.int, "07"⟩] (.value (.int 7)) := .value (.int (by decide))
    exact .plain .ident (.cons hseven .nil)
  have hright : Arg.Derived [⟨.openParen, "("⟩, ⟨.string, "x"⟩, ⟨.closeParen, ")"⟩]
      (.group [[.mk false (.test (.plain (.string "x") []))]]) := by
    have hx : Filter.Derived [⟨.string, "x"⟩] [[.mk false (.test (.plain (.string "x") []))]] :=
      .one (.one (.plain (.test (.plain .string .nil))))
    exact .group ⟨hx⟩
  have hderived : f.Derived ws :=
    .one (.one (.negated (by decide) (@Simple.Derived.compare _ _ _ .has _ hleft hright)))
  have hread : ∀ w ∈ ws, w.Readable := by
    have hint : Decimal.int64? ['0', '7'] = some 7 := by decide
    simp [ws, Lexeme.Readable, hint]
  have hf : parse "NOT a . 07:('x')" = .ok f :=
    parse_eq_ok_iff.2 ⟨ws, hws, hderived, by decide, hread⟩
  exact ⟨hf, by decide, parse_render hf⟩

end Filter

end Sift
