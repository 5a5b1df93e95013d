import Sift.Proofs.Compile.Lookup
import Sift.Proofs.Compile.Steps
import Sift.Proofs.Order.RoundTrip
import Sift.Proofs.Token.Joining

/-!
# Orders put together

A comma in a text always stands between two keys, so that a text around a comma is an order when
both of its sides are. Keys are compiled one by one, and two orders in a row give the outputs of
both in a row, or the error of the first that fails.
-/

namespace Sift

open Grammar

/-! ## Tokens around a comma -/

namespace Grammar

variable {s : List Char} {us vs ws : List Lexeme}

/-- Before a comma, tokens are as before the end of the input. -/
theorem split?_append_comma (hs : s ≠ []) (t : List Char) :
    orderBy.split? (s ++ ',' :: t) =
      (orderBy.split? s).map fun (k, w, rest) => (k, w, rest ++ ',' :: t) := by
  have hlater : ∀ r ∈ orderBy.rules, r.pattern.mentionsLater ',' = false := by decide
  exact split?_append fun r hr => Rule.read_append_cons hs (hlater r hr) t

theorem split?_append_comma_of_split? {k : Kind} {w rest : List Char}
    (h : orderBy.split? s = some (k, w, rest)) (t : List Char) :
    orderBy.split? (s ++ ',' :: t) = some (k, w, rest ++ ',' :: t) := by
  have hs : s ≠ [] := by
    rintro rfl
    simp [split?_nil] at h
  rw [split?_append_comma hs, h]
  rfl

/-- The first token before a comma, or the comma itself where nothing stands before it. -/
theorem split?_comma_cases {k : Kind} {t w rest : List Char}
    (h : orderBy.split? (s ++ ',' :: t) = some (k, w, rest)) :
    (s = [] ∧ k = .comma ∧ w = [','] ∧ rest = t) ∨
      ∃ rest', orderBy.split? s = some (k, w, rest') ∧ rest = rest' ++ ',' :: t := by
  by_cases hs : s = []
  · subst hs
    rw [List.nil_append, split?_separator (k := .comma) (by simp)] at h
    cases h
    exact .inl ⟨rfl, rfl, rfl, rfl⟩
  · rw [split?_append_comma hs, Option.map_eq_some_iff] at h
    obtain ⟨⟨k', w', rest'⟩, h, heq⟩ := h
    cases heq
    exact .inr ⟨rest', h, rfl⟩

theorem Reads.append_comma {t : List Char} (hs : orderBy.Reads s us) (ht : orderBy.Reads t vs) :
    orderBy.Reads (s ++ ',' :: t) (us ++ ⟨.comma, ","⟩ :: vs) := by
  induction hs with
  | nil => exact .token (split?_separator (by simp) t) (by decide) ht
  | space hsplit _ ih => exact .space (split?_append_comma_of_split? hsplit t) ih
  | token hsplit hk _ ih => exact .token (split?_append_comma_of_split? hsplit t) hk ih

/-- What is read around a comma is read on each side of it. -/
theorem Reads.split_comma {t : List Char} (h : orderBy.Reads (s ++ ',' :: t) ws) :
    ∃ us vs, orderBy.Reads s us ∧ orderBy.Reads t vs ∧ ws = us ++ ⟨.comma, ","⟩ :: vs := by
  generalize htext : s ++ ',' :: t = text at h
  induction h generalizing s with
  | nil => simp at htext
  | space hsplit _ ih =>
      subst htext
      rcases split?_comma_cases hsplit with ⟨-, hk, -⟩ | ⟨rest', hs, rfl⟩
      · cases hk
      · obtain ⟨us, vs, hus, hvs, rfl⟩ := ih rfl
        exact ⟨us, vs, .space hs hus, hvs, rfl⟩
  | @token _ w rest k ws hsplit hk hrest ih =>
      subst htext
      rcases split?_comma_cases hsplit with ⟨rfl, rfl, rfl, rfl⟩ | ⟨rest', hs, rfl⟩
      · exact ⟨[], ws, .nil, hrest, rfl⟩
      · obtain ⟨us, vs, hus, hvs, rfl⟩ := ih rfl
        exact ⟨.ofChars k w :: us, vs, .token hs hk hus, hvs, rfl⟩

end Grammar

/-! ## Keys around a comma -/

/-- A text around a comma is an order when both sides are, and its keys are theirs. -/
theorem Order.parse_append_comma {s t : String} {o : Order} :
    parse (s ++ "," ++ t) = .ok o ↔
      ∃ a b, parse s = .ok a ∧ parse t = .ok b ∧ o = a ++ b := by
  have htext : (s ++ "," ++ t).toList = s.toList ++ ',' :: t.toList := by simp
  constructor
  · intro h
    obtain ⟨ws, hws, ho⟩ := parse_eq_ok_iff.1 h
    rw [htext] at hws
    obtain ⟨us, vs, hus, hvs, rfl⟩ := hws.split_comma
    obtain ⟨a, b, rfl, ha, hb⟩ := ho.split Key.Derived.kind_ne_comma
    exact ⟨a, b, parse_eq_ok_iff.2 ⟨us, hus, ha⟩, parse_eq_ok_iff.2 ⟨vs, hvs, hb⟩, rfl⟩
  · rintro ⟨a, b, ha, hb, rfl⟩
    obtain ⟨us, hus, ha⟩ := parse_eq_ok_iff.1 ha
    obtain ⟨vs, hvs, hb⟩ := parse_eq_ok_iff.1 hb
    have hws := hus.append_comma hvs
    rw [← htext] at hws
    exact parse_eq_ok_iff.2 ⟨_, hws, ha.append hb⟩

/-! ## Compiling key by key -/

variable {T : Type} {s : Schema T}

/-- The key names a column that may be sorted by, and `out` is what the callback for its direction
makes of the column. -/
inductive Key.Builds (s : Schema T) : Key → T → Prop
  | mk {name : String} {descending : Bool} {c : Column T} {f : Callback T .field} {out : T} :
      s.column? name Capability.sortable = some c →
      s.callback? (if descending then "_desc" else "_asc") .field = some f →
      f name = .ok out → Key.Builds s ⟨[name], descending⟩ out

theorem Key.compile_eq_ok {k : Key} {out : T} :
    (k.compile s).result = .ok out ↔ k.Builds s out := by
  constructor
  · intro h
    obtain ⟨path, descending⟩ := k
    match path with
    | [] | _ :: _ :: _ => simp [compile] at h
    | [name] =>
        rw [compile_eq] at h
        split at h
        · cases h
        · next c hc =>
            dsimp only at h
            split at h
            · cases h
            · next f hf =>
                rw [Run.result_report_bind, Run.result_ofAnswer] at h
                cases hout : f name with
                | error reason =>
                    rw [hout] at h
                    cases h
                | ok out' =>
                    rw [hout] at h
                    cases h
                    exact .mk hc hf hout
  · rintro @⟨name, descending, c, f, _, hc, hf, hout⟩
    have hf : s.callback? (Key.direction ⟨[name], descending⟩) .field = some f := hf
    rw [compile_eq, hc]
    simp only [hf, Run.result_report_bind, Run.result_ofAnswer, hout]
    rfl

namespace Schema

theorem compileOrder_append (a b : Order) :
    s.compileOrder (a ++ b) = do
      let x ← s.compileOrder a
      let y ← s.compileOrder b
      return x ++ y := by
  induction a with
  | nil => simp [compileOrder]
  | cons k a ih => simp [compileOrder, ih]

/-- Of two orders in a row the first that fails decides the error. -/
theorem result_compileOrder_append (a b : Order) : (s.compileOrder (a ++ b)).result =
    match (s.compileOrder a).result, (s.compileOrder b).result with
    | .error e, _ => .error e
    | .ok _, .error e => .error e
    | .ok x, .ok y => .ok (x ++ y) := by
  simp only [compileOrder_append, Run.result_bind]
  cases (s.compileOrder a).result with
  | error e => rfl
  | ok x => cases (s.compileOrder b).result <;> rfl

theorem compileOrder_append_eq_ok {a b : Order} {outs : List T} :
    (s.compileOrder (a ++ b)).result = .ok outs ↔
      ∃ x y, (s.compileOrder a).result = .ok x ∧ (s.compileOrder b).result = .ok y ∧
        outs = x ++ y := by
  simp only [compileOrder_append, Run.result_bind_eq_ok, Run.result_pure_eq_ok]
  constructor
  · rintro ⟨x, hx, y, hy, rfl⟩
    exact ⟨x, y, hx, hy, rfl⟩
  · rintro ⟨x, y, hx, hy, rfl⟩
    exact ⟨x, hx, y, hy, rfl⟩

theorem compileOrder_eq_ok {o : Order} {outs : List T} :
    (s.compileOrder o).result = .ok outs ↔ List.Forall₂ (Key.Builds s) o outs := by
  induction o generalizing outs with
  | nil =>
      rw [compileOrder, Run.result_pure_eq_ok, List.forall₂_nil_left_iff]
      exact eq_comm
  | cons k o ih =>
      simp only [compileOrder, Run.result_bind_eq_ok, Run.result_pure_eq_ok, Key.compile_eq_ok,
        List.forall₂_cons_left_iff, ih]
      constructor
      · rintro ⟨out, hout, rest, hrest, rfl⟩
        exact ⟨out, rest, hout, hrest, rfl⟩
      · rintro ⟨out, rest, hout, hrest, rfl⟩
        exact ⟨out, hout, rest, hrest, rfl⟩

theorem order_eq_ok {text : String} {outs : List T} :
    (s.order text).result = .ok outs ↔
      ∃ o, Order.parse text = .ok o ∧ (s.compileOrder o).result = .ok outs := by
  unfold order
  cases Order.parse text with
  | error e => simp
  | ok o => simp [Run.mapError_eq_ok]

theorem order_append_comma_eq_ok {text text' : String} {outs : List T} :
    (s.order (text ++ "," ++ text')).result = .ok outs ↔
      ∃ x y, (s.order text).result = .ok x ∧ (s.order text').result = .ok y ∧ outs = x ++ y := by
  simp only [order_eq_ok, Order.parse_append_comma]
  constructor
  · rintro ⟨_, ⟨a, b, ha, hb, rfl⟩, houts⟩
    obtain ⟨x, y, hx, hy, rfl⟩ := compileOrder_append_eq_ok.1 houts
    exact ⟨x, y, ⟨a, ha, hx⟩, ⟨b, hb, hy⟩, rfl⟩
  · rintro ⟨x, y, ⟨a, ha, hx⟩, ⟨b, hb, hy⟩, rfl⟩
    exact ⟨a ++ b, ⟨a, b, ha, hb, rfl⟩, compileOrder_append_eq_ok.2 ⟨x, y, hx, hy, rfl⟩⟩

/-- Texts with a comma between them compile when each does, and give the outputs of both. Two orders
in a row fail as the first that fails, and otherwise give the outputs of both. The outputs of an
order, and so of a text, are those of its keys, one for each in the same sequence. -/
theorem order_composition (s : Schema T) :
    (∀ (text text' : String) (outs : List T),
      (s.order (text ++ "," ++ text')).result = .ok outs ↔
        ∃ x y, (s.order text).result = .ok x ∧ (s.order text').result = .ok y ∧ outs = x ++ y) ∧
    (∀ a b : Order, (s.compileOrder (a ++ b)).result =
      match (s.compileOrder a).result, (s.compileOrder b).result with
      | .error e, _ => .error e
      | .ok _, .error e => .error e
      | .ok x, .ok y => .ok (x ++ y)) ∧
    (∀ (o : Order) (outs : List T),
      (s.compileOrder o).result = .ok outs ↔ List.Forall₂ (Key.Builds s) o outs) ∧
    ∀ (text : String) (outs : List T),
      (s.order text).result = .ok outs ↔
        ∃ o, Order.parse text = .ok o ∧ List.Forall₂ (Key.Builds s) o outs := by
  refine ⟨fun text text' outs => order_append_comma_eq_ok, result_compileOrder_append,
    fun o outs => compileOrder_eq_ok, fun text outs => ?_⟩
  simp only [order_eq_ok, compileOrder_eq_ok]

end Schema

end Sift
