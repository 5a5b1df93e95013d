import Sift.Proofs.Token.Reading

/-!
# Phrases

A grammar is given by relations between lexemes and trees. Repetition, options and parentheses are
relations of their own. A relation is unambiguous when what follows a phrase decides where the
phrase ends and which tree it has.
-/

namespace Sift

variable {α β : Type}

/-! ## Repetition and parentheses -/

/-- Any number of parts with a lexeme of kind `k` before each: `(k D)*`. -/
inductive Followed (k : Kind) (D : List Lexeme → α → Prop) : List Lexeme → List α → Prop
  | nil : Followed k D [] []
  | cons {x : String} {ts us : List Lexeme} {a : α} {as : List α} :
      D ts a → Followed k D us as → Followed k D (⟨k, x⟩ :: (ts ++ us)) (a :: as)

/-- Parts with a lexeme of kind `k` between them: `D (k D)*`. -/
inductive Separated (k : Kind) (D : List Lexeme → α → Prop) : List Lexeme → List α → Prop
  | mk {ts us : List Lexeme} {a : α} {as : List α} :
      D ts a → Followed k D us as → Separated k D (ts ++ us) (a :: as)

/-- A list, or nothing for the empty one: `D?`. -/
inductive Optionally (D : List Lexeme → List α → Prop) : List Lexeme → List α → Prop
  | nil : Optionally D [] []
  | some {ts : List Lexeme} {as : List α} : D ts as → Optionally D ts as

/-- A part in parentheses: `"(" D ")"`. -/
inductive InParens (D : List Lexeme → α → Prop) : List Lexeme → α → Prop
  | mk {x y : String} {ts : List Lexeme} {a : α} :
      D ts a → InParens D (⟨.openParen, x⟩ :: (ts ++ [⟨.closeParen, y⟩])) a

section

variable {k : Kind} {D : List Lexeme → α → Prop} {ts us : List Lexeme} {a : α} {as : List α}

theorem Separated.one (h : D ts a) : Separated k D ts [a] := by
  simpa using Separated.mk h (.nil : Followed k D [] [])

theorem Separated.cons {x : String} (h : D ts a) (has : Separated k D us as) :
    Separated k D (ts ++ ⟨k, x⟩ :: us) (a :: as) := by
  cases has with
  | mk hb hbs => exact .mk h (.cons hb hbs)

theorem Separated.uncons (h : Separated k D ts (a :: as)) :
    as = [] ∧ D ts a ∨
      ∃ us x vs, ts = us ++ ⟨k, x⟩ :: vs ∧ D us a ∧ Separated k D vs as := by
  cases h with
  | mk ha has =>
      cases has with
      | nil => exact Or.inl ⟨rfl, by simpa using ha⟩
      | cons hb hbs => exact Or.inr ⟨_, _, _, rfl, ha, .mk hb hbs⟩

/-- Where the lexemes of a part tell something of the part, those of all tell it of every part. -/
theorem Followed.forall_of {P : Lexeme → Prop} {Q : α → Prop} (h : Followed k D ts as)
    (hD : ∀ {us a}, D us a → (∀ w ∈ us, P w) → Q a) (hts : ∀ w ∈ ts, P w) : ∀ a ∈ as, Q a := by
  induction h with
  | nil => simp
  | cons ha _ ih =>
      obtain ⟨hus, hr⟩ := List.forall_mem_append.1 (List.forall_mem_cons.1 hts).2
      exact List.forall_mem_cons.2 ⟨hD ha hus, ih hr⟩

theorem Separated.forall_of {P : Lexeme → Prop} {Q : α → Prop} (h : Separated k D ts as)
    (hD : ∀ {us a}, D us a → (∀ w ∈ us, P w) → Q a) (hts : ∀ w ∈ ts, P w) : ∀ a ∈ as, Q a := by
  obtain ⟨ha, has⟩ := h
  obtain ⟨hus, hr⟩ := List.forall_mem_append.1 hts
  exact List.forall_mem_cons.2 ⟨hD ha hus, has.forall_of hD hr⟩

/-- What holds of the separators and of the lexemes of each part holds of all lexemes. -/
theorem Followed.forall_mem {P : Lexeme → Prop} (h : Followed k D ts as) (hk : ∀ x, P ⟨k, x⟩)
    (hD : ∀ {us a}, D us a → ∀ w ∈ us, P w) : ∀ w ∈ ts, P w := by
  induction h with
  | nil => simp
  | cons ha _ ih =>
      rw [List.forall_mem_cons, List.forall_mem_append]
      exact ⟨hk _, hD ha, ih⟩

theorem Separated.forall_mem {P : Lexeme → Prop} (h : Separated k D ts as) (hk : ∀ x, P ⟨k, x⟩)
    (hD : ∀ {us a}, D us a → ∀ w ∈ us, P w) : ∀ w ∈ ts, P w := by
  obtain ⟨ha, has⟩ := h
  exact List.forall_mem_append.2 ⟨hD ha, has.forall_mem hk hD⟩

theorem Separated.ne_nil (h : Separated k D ts as) : as ≠ [] := by
  cases h
  simp

theorem Followed.append {bs : List α} (has : Followed k D ts as) (hbs : Followed k D us bs) :
    Followed k D (ts ++ us) (as ++ bs) := by
  induction has with
  | nil => exact hbs
  | cons ha _ ih =>
      rw [List.cons_append, List.append_assoc]
      exact .cons ha ih

theorem Separated.append {bs : List α} {x : String} (has : Separated k D ts as)
    (hbs : Separated k D us bs) : Separated k D (ts ++ ⟨k, x⟩ :: us) (as ++ bs) := by
  obtain ⟨ha, has⟩ := has
  obtain ⟨hb, hbs⟩ := hbs
  rw [List.append_assoc]
  exact .mk ha (has.append (.cons hb hbs))

/-- Where no part has a separator in it, parts can be split at any of them. -/
theorem Separated.split {x : String} (hD : ∀ {us a}, D us a → ∀ w ∈ us, w.kind ≠ k)
    (h : Separated k D (ts ++ ⟨k, x⟩ :: us) as) :
    ∃ bs cs, as = bs ++ cs ∧ Separated k D ts bs ∧ Separated k D us cs := by
  induction as generalizing ts with
  | nil => exact absurd rfl h.ne_nil
  | cons a as ih =>
      rcases h.uncons with ⟨-, ha⟩ | ⟨vs, y, ws, heq, ha, has⟩
      · exact absurd rfl (hD ha ⟨k, x⟩ (by simp))
      · rcases List.append_eq_append_iff.1 heq with ⟨m, rfl, hm⟩ | ⟨m, rfl, hm⟩
        · cases m with
          | nil =>
              cases hm
              exact ⟨[a], as, rfl, .one (by simpa using ha), has⟩
          | cons w m =>
              cases hm
              exact absurd rfl (hD ha ⟨k, x⟩ (by simp))
        · cases m with
          | nil =>
              cases hm
              exact ⟨[a], as, rfl, .one (by simpa using ha), has⟩
          | cons w m =>
              cases hm
              obtain ⟨bs, cs, rfl, hbs, hcs⟩ := ih has
              exact ⟨a :: bs, cs, rfl, .cons ha hbs, hcs⟩

end

/-! ## Beginnings and ends -/

variable {k : Kind} {ts us r r' : List Lexeme}

/-- No lexeme of a kind in `ks` stands first. -/
def Stops (ks : List Kind) (ts : List Lexeme) : Prop := ∀ w ∈ ts.head?, w.kind ∉ ks

/-- What is derived begins with a lexeme of a kind in `ks`. -/
def Starts (D : List Lexeme → α → Prop) (ks : List Kind) : Prop :=
  ∀ ⦃ts : List Lexeme⦄ ⦃a : α⦄, D ts a → ∃ w r, ts = w :: r ∧ w.kind ∈ ks

/-- Of two sequences that begin a text, each with a tree and neither followed by a kind in `more`,
neither is longer, and the trees are one. -/
def Unambiguous (D : List Lexeme → α → Prop) (Q : α → Prop) (more : List Kind) : Prop :=
  ∀ ⦃ts us r r' : List Lexeme⦄ ⦃a b : α⦄, D ts a → D us b → Q a → Q b → ts ++ r = us ++ r' →
    Stops more r → Stops more r' → ts = us ∧ a = b

theorem stops_nil (ts : List Lexeme) : Stops [] ts := fun _ _ => List.not_mem_nil

theorem Stops.mono {ks ks' : List Kind} (hks : ks' ⊆ ks) (h : Stops ks r) : Stops ks' r :=
  fun w hw hk => h w hw (hks hk)

theorem Stops.cons {ks : List Kind} {w : Lexeme} (h : w.kind ∉ ks) (r : List Lexeme) :
    Stops ks (w :: r) := by
  intro v hv
  cases hv
  exact h

theorem Stops.not_mem {ks : List Kind} {w : Lexeme} (h : Stops ks (w :: r)) : w.kind ∉ ks :=
  h w rfl

section

variable {D : List Lexeme → α → Prop} {E : List Lexeme → β → Prop} {Q : α → Prop}
variable {more first first' : List Kind}

theorem Starts.stops (h : Starts D first) {a : α} (ha : D ts a) (hk : ∀ k ∈ first, k ∉ more) :
    Stops more (ts ++ r) := by
  obtain ⟨w, s, rfl, hw⟩ := h ha
  exact .cons (hk _ hw) _

theorem Starts.not_stops (h : Starts D first) {a : α} (ha : D ts a) (hk : first ⊆ more) :
    ¬ Stops more (ts ++ r) := by
  obtain ⟨w, s, rfl, hw⟩ := h ha
  exact fun hr => hr.not_mem (hk hw)

theorem Starts.append_ne (h : Starts D first) (h' : Starts E first') {a : α} {b : β}
    (ha : D ts a) (hb : E us b) (hk : ∀ k ∈ first, k ∉ first') : ts ++ r ≠ us ++ r' := by
  obtain ⟨w, s, rfl, hw⟩ := h ha
  obtain ⟨w', s', rfl, hw'⟩ := h' hb
  intro heq
  simp only [List.cons_append, List.cons.injEq] at heq
  exact hk _ hw (heq.1 ▸ hw')

theorem Starts.inParens : Starts (InParens D) [.openParen] := by
  rintro _ _ ⟨h⟩
  exact ⟨_, _, rfl, by simp⟩

theorem Starts.separated (h : Starts D first) : Starts (Separated k D) first := by
  rintro _ _ ⟨ha, -⟩
  obtain ⟨w, s, rfl, hw⟩ := h ha
  exact ⟨w, _, rfl, hw⟩

theorem Followed.stops {as : List α} (h : Followed k D ts as) (hk : k ∉ more)
    (hr : Stops (k :: more) r) : Stops more (ts ++ r) := by
  cases h with
  | nil => exact hr.mono (List.subset_cons_self k more)
  | cons _ _ => exact .cons hk _

theorem Unambiguous.followed (h : Unambiguous D Q more) (hk : k ∉ more) :
    Unambiguous (Followed k D) (fun as => ∀ a ∈ as, Q a) (k :: more) := by
  intro ts us r r' as bs has hbs hq hq' heq hr hr'
  induction has generalizing us bs with
  | nil =>
      cases hbs with
      | nil => exact ⟨rfl, rfl⟩
      | cons _ _ =>
          rw [List.nil_append] at heq
          rw [heq] at hr
          exact absurd List.mem_cons_self hr.not_mem
  | cons ha has ih =>
      cases hbs with
      | nil =>
          rw [List.nil_append] at heq
          rw [← heq] at hr'
          exact absurd List.mem_cons_self hr'.not_mem
      | cons hb hbs =>
          simp only [List.cons_append, List.append_assoc, List.cons.injEq] at heq
          obtain ⟨hx, heq⟩ := heq
          simp only [List.forall_mem_cons] at hq hq'
          obtain ⟨rfl, rfl⟩ := h ha hb hq.1 hq'.1 heq (has.stops hk hr) (hbs.stops hk hr')
          obtain ⟨rfl, rfl⟩ := ih hbs hq.2 hq'.2 (List.append_cancel_left heq)
          exact ⟨by rw [hx], rfl⟩

theorem Unambiguous.separated (h : Unambiguous D Q more) (hk : k ∉ more) :
    Unambiguous (Separated k D) (fun as => ∀ a ∈ as, Q a) (k :: more) := by
  rintro _ _ r r' _ _ ⟨ha, has⟩ ⟨hb, hbs⟩ hq hq' heq hr hr'
  simp only [List.forall_mem_cons] at hq hq'
  simp only [List.append_assoc] at heq
  obtain ⟨rfl, rfl⟩ := h ha hb hq.1 hq'.1 heq (has.stops hk hr) (hbs.stops hk hr')
  obtain ⟨rfl, rfl⟩ :=
    h.followed hk has hbs hq.2 hq'.2 (List.append_cancel_left heq) hr hr'
  exact ⟨rfl, rfl⟩

theorem Unambiguous.optionally {D : List Lexeme → List α → Prop} {Q : List α → Prop}
    (h : Unambiguous D Q more) (hfirst : Starts D first) :
    Unambiguous (Optionally D) Q (first ++ more) := by
  rintro ts us r r' as bs has hbs hq hq' heq hr hr'
  cases has with
  | nil =>
      cases hbs with
      | nil => exact ⟨rfl, rfl⟩
      | some hbs =>
          rw [List.nil_append] at heq
          rw [heq] at hr
          exact absurd hr (hfirst.not_stops hbs (List.subset_append_left first more))
  | some has =>
      cases hbs with
      | nil =>
          rw [List.nil_append] at heq
          rw [← heq] at hr'
          exact absurd hr' (hfirst.not_stops has (List.subset_append_left first more))
      | some hbs =>
          have hmore := List.subset_append_right first more
          exact h has hbs hq hq' heq (hr.mono hmore) (hr'.mono hmore)

theorem Unambiguous.inParens (h : Unambiguous D Q more) (hclose : .closeParen ∉ more) :
    Unambiguous (InParens D) Q [] := by
  rintro _ _ r r' _ _ ⟨ha⟩ ⟨hb⟩ hq hq' heq - -
  simp only [List.cons_append, List.append_assoc, List.cons.injEq] at heq
  obtain ⟨hx, heq⟩ := heq
  obtain ⟨rfl, rfl⟩ := h ha hb hq hq' heq (.cons hclose _) (.cons hclose _)
  have hy := List.append_cancel_left heq
  simp only [List.nil_append, List.cons.injEq] at hy
  exact ⟨by rw [hx, hy.1], rfl⟩

end

end Sift
