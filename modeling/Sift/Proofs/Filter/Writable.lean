import Sift.Proofs.Filter.Acceptance

/-!
# Trees that a text can have

A tree can be written when none of its lists is empty where the grammar asks for one part at least,
and each of its values can be written: names are names, numbers have no minus sign, and no string
holds both quotes.
-/

namespace Sift

namespace Value

def Writable : Value → Prop
  | wildcard | boolean _ => True
  | int n => 0 ≤ n.toInt
  | float x => x.isFinite = true ∧ x.negative = false
  | string s => '\'' ∉ s.toList ∨ '"' ∉ s.toList
  | ident name => Grammar.filter.IsName name.toList

end Value

def Field.Writable : Field → Prop
  | value v => v.Writable
  | keyword text => text ∈ ["AND", "OR", "NOT"]

mutual

def Term.Writable : Term → Prop
  | .mk _ body => body.Writable

def Simple.Writable : Simple → Prop
  | .group filter => Filter.Writable filter
  | .test operand => operand.Writable
  | .compare left _ right => left.Writable ∧ right.Writable

def Comparable.Writable : Comparable → Prop
  | .plain value path => value.Writable ∧ ∀ f ∈ path, f.Writable
  | .call value path args => value.Writable ∧ (∀ f ∈ path, f.Writable) ∧ Args.Writable args

def Arg.Writable : Arg → Prop
  | .group filter => Filter.Writable filter
  | .comparable operand => operand.Writable

def Args.Writable : List Arg → Prop
  | [] => True
  | arg :: r => arg.Writable ∧ Args.Writable r

def Clause.Writable : List Term → Prop
  | [] => False
  | [term] => term.Writable
  | term :: r => term.Writable ∧ Clause.Writable r

def Filter.Writable : List (List Term) → Prop
  | [] => False
  | [clause] => Clause.Writable clause
  | clause :: r => Clause.Writable clause ∧ Filter.Writable r

end

/-! ## What has a derivation -/

structure Lexeme.Legible (w : Lexeme) : Prop where
  proper : w.Proper
  readable : w.Readable

theorem Value.writable_of_derived {v : Value} {ts : List Lexeme} (h : v.Derived ts)
    (hts : ∀ w ∈ ts, w.Legible) : v.Writable := by
  cases h with
  | star | trueWord | falseWord => trivial
  | int hn =>
      obtain ⟨sign, digits, hx, hsign, hdigits⟩ := (hts _ List.mem_cons_self).proper
      show 0 ≤ Int64.toInt _
      rw [hn, hx]
      exact Decimal.intValue_nonneg hsign hdigits
  | float hy =>
      obtain ⟨sign, whole, fraction, hx, hsign, hwhole, hfraction⟩ :=
        (hts _ List.mem_cons_self).proper
      obtain ⟨y, hy', hfinite⟩ := (hts _ List.mem_cons_self).readable
      cases hy.symm.trans hy'
      rw [hx, Decimal.binary64?_append hsign hwhole hfraction] at hy
      cases hy
      exact ⟨hfinite, rfl⟩
  | string => exact (hts _ List.mem_cons_self).proper
  | ident => exact (hts _ List.mem_cons_self).proper

theorem Field.writable_of_derived {f : Field} {ts : List Lexeme} (h : f.Derived ts)
    (hts : ∀ w ∈ ts, w.Legible) : f.Writable := by
  cases h with
  | value hv => exact Value.writable_of_derived hv hts
  | @keyword k x hk =>
      have hproper := (hts _ List.mem_cons_self).proper
      simp only [Field.keywords, List.mem_cons, List.not_mem_nil, or_false] at hk
      rcases hk with rfl | rfl | rfl
      · simp [Writable, show x = "AND" from hproper]
      · simp [Writable, show x = "OR" from hproper]
      · simp [Writable, show x = "NOT" from hproper]

theorem Path.writable_of_derived {path : List Field} {ts : List Lexeme} (h : Path.Derived ts path)
    (hts : ∀ w ∈ ts, w.Legible) : ∀ f ∈ path, f.Writable :=
  h.forall_of Field.writable_of_derived hts

mutual

theorem Term.writable_of_derived {ts : List Lexeme} :
    (t : Term) → t.Derived ts → (∀ w ∈ ts, w.Legible) → t.Writable
  | .mk _ body, h, hts => by
      cases h with
      | plain hs => exact Simple.writable_of_derived body hs hts
      | negated _ hs =>
          exact Simple.writable_of_derived body hs fun w hw => hts w (List.mem_cons_of_mem _ hw)

theorem Simple.writable_of_derived {ts : List Lexeme} :
    (s : Simple) → s.Derived ts → (∀ w ∈ ts, w.Legible) → s.Writable
  | .group f, h, hts => by
      cases h with
      | group hf =>
          obtain ⟨hf⟩ := hf
          exact Filter.writable_of_derived f hf fun w hw => hts w (by simp [hw])
  | .test x, h, hts => by
      cases h with
      | test hx => exact Comparable.writable_of_derived x hx hts
  | .compare x _ a, h, hts => by
      cases h with
      | compare hx ha =>
          exact ⟨Comparable.writable_of_derived x hx fun w hw => hts w (by simp [hw]),
            Arg.writable_of_derived a ha fun w hw => hts w (by simp [hw])⟩

theorem Comparable.writable_of_derived {ts : List Lexeme} :
    (x : Comparable) → x.Derived ts → (∀ w ∈ ts, w.Legible) → x.Writable
  | .plain v path, h, hts => by
      cases h with
      | plain hv hpath =>
          exact ⟨Value.writable_of_derived hv fun w hw => hts w (by simp [hw]),
            Path.writable_of_derived hpath fun w hw => hts w (by simp [hw])⟩
  | .call v path args, h, hts => by
      cases h with
      | call hv hpath hargs =>
          obtain ⟨hargs⟩ := hargs
          exact ⟨Value.writable_of_derived hv fun w hw => hts w (by simp [hw]),
            Path.writable_of_derived hpath fun w hw => hts w (by simp [hw]),
            Args.writable_of_derived args hargs fun w hw => hts w (by simp [hw])⟩

theorem Arg.writable_of_derived {ts : List Lexeme} :
    (a : Arg) → a.Derived ts → (∀ w ∈ ts, w.Legible) → a.Writable
  | .group f, h, hts => by
      cases h with
      | group hf =>
          obtain ⟨hf⟩ := hf
          exact Filter.writable_of_derived f hf fun w hw => hts w (by simp [hw])
  | .comparable x, h, hts => by
      cases h with
      | comparable hx => exact Comparable.writable_of_derived x hx hts

theorem Args.writable_of_derived {ts : List Lexeme} :
    (args : List Arg) → Args.Derived ts args → (∀ w ∈ ts, w.Legible) → Args.Writable args
  | [], _, _ => trivial
  | a :: r, .some h, hts => by
      rcases h.uncons with ⟨rfl, ha⟩ | ⟨us, x, vs, rfl, ha, h⟩
      · exact ⟨Arg.writable_of_derived a ha hts, trivial⟩
      · exact ⟨Arg.writable_of_derived a ha fun w hw => hts w (by simp [hw]),
          Args.writable_of_derived r (.some h) fun w hw => hts w (by simp [hw])⟩

theorem Clause.writable_of_derived {ts : List Lexeme} :
    (c : List Term) → Clause.Derived ts c → (∀ w ∈ ts, w.Legible) → Clause.Writable c
  | t :: r, h, hts => by
      rcases h.uncons with ⟨rfl, ht⟩ | ⟨us, x, vs, rfl, ht, h⟩
      · exact Term.writable_of_derived t ht hts
      · have ht := Term.writable_of_derived t ht fun w hw => hts w (by simp [hw])
        have hr := Clause.writable_of_derived r h fun w hw => hts w (by simp [hw])
        cases h with
        | mk _ _ => exact ⟨ht, hr⟩

theorem Filter.writable_of_derived {ts : List Lexeme} :
    (f : List (List Term)) → Filter.Derived ts f → (∀ w ∈ ts, w.Legible) → Filter.Writable f
  | c :: r, h, hts => by
      rcases h.uncons with ⟨rfl, hc⟩ | ⟨us, x, vs, rfl, hc, h⟩
      · exact Clause.writable_of_derived c hc hts
      · have hc := Clause.writable_of_derived c hc fun w hw => hts w (by simp [hw])
        have hr := Filter.writable_of_derived r h fun w hw => hts w (by simp [hw])
        cases h with
        | mk _ _ => exact ⟨hc, hr⟩

end

end Sift
