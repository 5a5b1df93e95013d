import Sift.Proofs.Compile.Success
import Sift.Proofs.Value.Comparison

/-!
# The meaning of compiled filters

Where outputs are predicates on rows, and the operations of a schema do what their names say, a
filter compiles to a predicate that holds of a row exactly when every clause with terms has a term
that is true of it.
-/

namespace Sift

variable {Row : Type}

/-- What the comparisons of a schema say of a row, and what its relational columns make of a
predicate on the rows behind them. -/
structure Reading (Row : Type) where
  literal : Comparison → String → Value → Row → Prop
  fields : Comparison → String → String → Row → Prop
  related : String → (Row → Prop) → Row → Prop

/-- Readings of a schema and of those behind it, by the relational columns that lead there. -/
abbrev Readings (Row : Type) := List String → Reading Row

def Readings.behind (R : Readings Row) (column : String) : Readings Row :=
  fun path => R (column :: path)

/-! ## Operations that do what their names say -/

/-- Whatever `op` gives for operands of the shape `slot` means what `P` says of them. -/
def Operation.Means (op : Operation (Row → Prop)) (slot : Slot)
    (P : slot.Args (Row → Prop) → Row → Prop) : Prop :=
  ∀ f operands out, op.callback? slot = some f → f operands = .ok out →
    ∀ row, out row ↔ P operands row

structure Operation.Faithful (R : Reading Row) (op : Operation (Row → Prop)) : Prop where
  conjunction : op.name = andName → op.Means .combine fun outs row => ∀ out ∈ outs, out row
  disjunction : op.name = orName → op.Means .combine fun outs row => ∃ out ∈ outs, out row
  negation : op.name = notName → ∀ f inner out, op.callback? .combine = some f →
    f [inner] = .ok out → ∀ row, out row ↔ ¬ inner row
  truth : op.name = trueName → op.Means .constant fun _ _ => True
  falsity : op.name = falseName → op.Means .constant fun _ _ => False
  int : ∀ c : Comparison, op.name = c.symbol →
    op.Means .int fun (column, n) => R.literal c column (.int n)
  float : ∀ c : Comparison, op.name = c.symbol →
    op.Means .float fun (column, x) => R.literal c column (.float x)
  boolean : ∀ c : Comparison, op.name = c.symbol →
    op.Means .boolean fun (column, b) => R.literal c column (.boolean b)
  string : ∀ c : Comparison, op.name = c.symbol →
    op.Means .string fun (column, t) => R.literal c column (.string t)
  fields : ∀ c : Comparison, op.name = c.symbol →
    op.Means .fields fun (left, right) => R.fields c left right

/-- The operations of the schema do what their names say, and so do those behind its columns. -/
inductive Schema.Faithful : Readings Row → Schema (Row → Prop) → Prop
  | mk {R : Readings Row} {s : Schema (Row → Prop)} :
      (∀ op ∈ s.operations, op.Faithful (R [])) →
      (∀ c ∈ s.columns, ∀ r, c.relation? = some r →
        Schema.Faithful (R.behind c.name) r.schema) →
      (∀ c ∈ s.columns, ∀ r, c.relation? = some r → ∀ inner out, r.embed inner = .ok out →
        out = (R []).related c.name inner) →
      Schema.Faithful R s

/-! ## What a filter says -/

namespace Reading

/-- An operand on its own. A literal has to differ from the zero of its type. -/
def test (R : Reading Row) : Comparable → Row → Prop
  | .plain (.ident name) [], row => R.literal .eq name (.boolean true) row
  | .plain v [], _ => ∃ zero, v.zero? = some zero ∧ v.compare .eq zero = false
  | _, _ => False

/-- A literal on the left of a column is read as if it stood on the right. -/
def compare (R : Reading Row) (op : Comparison) : Comparable → Comparable → Row → Prop
  | .plain (.ident left) [], .plain (.ident right) [], row => R.fields op left right row
  | .plain (.ident column) [], .plain v [], row => R.literal op column v row
  | .plain v [], .plain (.ident column) [], row => R.literal op column v row
  | .plain v [], .plain w [], _ => v.compare op w = true
  | _, _, _ => False

variable {R : Reading Row} {op : Comparison} {column : String} {v w : Value} {row : Row}

theorem test_literal (hwild : v.isWildcard = false) (hident : v.ident? = none) :
    R.test (.plain v []) row ↔ v.isZero = false := by
  cases v with
  | wildcard => cases hwild
  | ident name => cases hident
  | int _ | float _ | string _ | boolean _ => simp [test, Value.isZero, Value.zero?]

theorem compare_column_literal (hident : v.ident? = none) :
    R.compare op (.plain (.ident column) []) (.plain v []) row ↔ R.literal op column v row := by
  cases v with
  | ident name => cases hident
  | _ => exact Iff.rfl

theorem compare_literal_column (hident : v.ident? = none) :
    R.compare op (.plain v []) (.plain (.ident column) []) row ↔ R.literal op column v row := by
  cases v with
  | ident name => cases hident
  | _ => exact Iff.rfl

theorem compare_literals (hv : v.ident? = none) (hw : w.ident? = none) :
    R.compare op (.plain v []) (.plain w []) row ↔ v.compare op w = true := by
  cases v with
  | ident name => cases hv
  | _ =>
      cases w with
      | ident name => cases hw
      | _ => exact Iff.rfl

end Reading

mutual

def Term.Holds (R : Readings Row) : Term → Row → Prop
  | .mk true body, row => ¬ body.Holds R row
  | .mk false body, row => body.Holds R row

def Simple.Holds (R : Readings Row) : Simple → Row → Prop
  | .group f, row => Filter.Holds R f row
  | .test x, row => (R []).test x row
  | .compare (.plain (.ident column) []) .has (.group f), row =>
    (R []).related column (Filter.Holds (R.behind column) f) row
  | .compare _ _ (.group _), _ => False
  | .compare left op (.comparable right), row => (R []).compare op left right row

def Clause.Holds (R : Readings Row) : List Term → Row → Prop
  | [], _ => False
  | term :: r, row => term.Holds R row ∨ Clause.Holds R r row

def Filter.Holds (R : Readings Row) : List (List Term) → Row → Prop
  | [], _ => True
  | clause :: r, row => (clause = [] ∨ Clause.Holds R clause row) ∧ Filter.Holds R r row

end

theorem Clause.holds_iff {R : Readings Row} {c : Clause} {row : Row} :
    Clause.Holds R c row ↔ ∃ term ∈ c, term.Holds R row := by
  induction c with
  | nil => simp [Clause.Holds]
  | cons term r ih => simp [Clause.Holds, ih]

theorem Filter.holds_iff {R : Readings Row} {f : Filter} {row : Row} :
    Filter.Holds R f row ↔ ∀ clause ∈ f, clause ≠ [] → ∃ term ∈ clause, term.Holds R row := by
  induction f with
  | nil => simp [Filter.Holds]
  | cons clause r ih =>
      simp only [Filter.Holds, ih, Clause.holds_iff, List.forall_mem_cons, ne_eq,
        Classical.or_iff_not_imp_left]

/-! ## Compiling the parts -/

section

variable {R : Readings Row} {s : Schema (Row → Prop)} {out : Row → Prop}

namespace Schema.Faithful

/-- A call means what the operation of its name means. -/
theorem call (hs : s.Faithful R) {name : String} {slot : Slot} {operands : slot.Args (Row → Prop)}
    {P : slot.Args (Row → Prop) → Row → Prop}
    (hP : ∀ op : Operation (Row → Prop), op.Faithful (R []) → op.name = name → op.Means slot P)
    (h : (s.call name slot operands).result = .ok out) (row : Row) :
    out row ↔ P operands row := by
  obtain ⟨op, f, hop, hf, hout⟩ := call_eq_ok.1 h
  obtain ⟨hmem, hname, -⟩ := mem_of_operation? hop
  cases hs with
  | mk hops _ _ => exact hP op (hops op hmem) hname f operands out hf hout row

theorem constant (hs : s.Faithful R) {value : Bool}
    (h : (s.constant value).result = .ok out) (row : Row) : out row ↔ value = true := by
  cases value with
  | true => simpa using hs.call (fun op hop hname => hop.truth hname) h row
  | false => simpa using hs.call (fun op hop hname => hop.falsity hname) h row

theorem negation (hs : s.Faithful R) {inner : Row → Prop}
    (h : (s.combine Operation.notName [inner]).result = .ok out) (row : Row) :
    out row ↔ ¬ inner row := by
  obtain ⟨op, f, hop, hf, hout⟩ := call_eq_ok.1 h
  obtain ⟨hmem, hname, -⟩ := mem_of_operation? hop
  cases hs with
  | mk hops _ _ => exact (hops op hmem).negation hname f inner out hf hout row

theorem join_and (hs : s.Faithful R) {before? : Option (Row → Prop)} {last : Row → Prop}
    (h : (s.join Operation.andName before? last).result = .ok out) (row : Row) :
    out row ↔ before?.elim True (· row) ∧ last row := by
  rcases join_eq_ok.1 h with ⟨rfl, rfl⟩ | ⟨before, rfl, h⟩
  · simp
  · simpa using hs.call (fun op hop hname => hop.conjunction hname) h row

theorem join_or (hs : s.Faithful R) {before? : Option (Row → Prop)} {last : Row → Prop}
    (h : (s.join Operation.orName before? last).result = .ok out) (row : Row) :
    out row ↔ before?.elim False (· row) ∨ last row := by
  rcases join_eq_ok.1 h with ⟨rfl, rfl⟩ | ⟨before, rfl, h⟩
  · simp
  · simpa using hs.call (fun op hop hname => hop.disjunction hname) h row

theorem orTrue (hs : s.Faithful R) {out? : Option (Row → Prop)}
    (h : (s.orTrue out?).result = .ok out) (row : Row) : out row ↔ out?.elim True (· row) := by
  cases out? with
  | none => simpa using hs.constant h row
  | some last =>
      cases h
      exact Iff.rfl

theorem compareColumn (hs : s.Faithful R) {op : Comparison} {column : String} {v : Value}
    (h : (Operand.compareColumn s op column v).result = .ok out) (row : Row) :
    out row ↔ (R []).literal op column v row := by
  cases v with
  | wildcard | ident _ => simp [Operand.compareColumn] at h
  | int n => exact hs.call (fun o ho hname => ho.int op hname) h row
  | float x => exact hs.call (fun o ho hname => ho.float op hname) h row
  | boolean b => exact hs.call (fun o ho hname => ho.boolean op hname) h row
  | string t => exact hs.call (fun o ho hname => ho.string op hname) h row

theorem test (hs : s.Faithful R) {x : Comparable} {o : Operand (Row → Prop)}
    (hx : Operand.Resolves s x o) (h : (Operand.test s o).result = .ok out) (row : Row) :
    out row ↔ (R []).test x row := by
  cases hx with
  | column _ => exact hs.call (fun o ho hname => ho.boolean .eq hname) h row
  | @literal v hwild hident =>
      rw [hs.constant h row, Reading.test_literal hwild hident]
      simp

theorem compare (hs : s.Faithful R) {op : Comparison} {x y : Comparable}
    {o o' : Operand (Row → Prop)} (hx : Operand.Resolves s x o) (hy : Operand.Resolves s y o')
    (h : (Operand.compare s op o o').result = .ok out) (row : Row) :
    out row ↔ (R []).compare op x y row := by
  cases hx with
  | column _ =>
      cases hy with
      | column _ => exact hs.call (fun o ho hname => ho.fields op hname) h row
      | literal _ hident =>
          rw [Reading.compare_column_literal hident]
          exact hs.compareColumn h row
  | literal _ hident =>
      cases hy with
      | column _ =>
          rw [Reading.compare_literal_column hident]
          exact hs.compareColumn h row
      | literal _ hident' =>
          rw [Reading.compare_literals hident hident']
          simp only [Operand.compare, Run.result_report_bind] at h
          exact hs.constant h row

theorem related (hs : s.Faithful R) {c : Column (Row → Prop)} {r : Relation (Row → Prop)}
    (hc : c ∈ s.columns) (hr : c.relation? = some r) :
    r.schema.Faithful (R.behind c.name) ∧
      ∀ inner out, r.embed inner = .ok out → out = (R []).related c.name inner := by
  cases hs with
  | mk _ hbehind hembed => exact ⟨hbehind c hc r hr, hembed c hc r hr⟩

end Schema.Faithful

/-! ## Compiling trees -/

mutual

theorem Term.holds_of_compile {R : Readings Row} {s : Schema (Row → Prop)} (hs : s.Faithful R) :
    (t : Term) → {out : Row → Prop} → (t.compile s).result = .ok out →
      ∀ row, out row ↔ t.Holds R row
  | .mk negated body, out, h, row => by
      simp only [Term.compile, Run.result_bind_eq_ok] at h
      obtain ⟨inner, hinner, h⟩ := h
      have ih := Simple.holds_of_compile hs body hinner row
      cases negated with
      | true =>
          simp only [if_true] at h
          rw [hs.negation h row, ih, Term.Holds]
      | false =>
          simp only [Bool.false_eq_true, if_false, Run.result_pure_eq_ok] at h
          rw [← h, ih, Term.Holds]

theorem Simple.holds_of_compile {R : Readings Row} {s : Schema (Row → Prop)} (hs : s.Faithful R) :
    (b : Simple) → {out : Row → Prop} → (b.compile s).result = .ok out →
      ∀ row, out row ↔ b.Holds R row
  | .group f, out, h, row => by
      simp only [Simple.compile, Run.result_bind_eq_ok] at h
      obtain ⟨out?, hf, h⟩ := h
      have ih := Filter.holds_of_compileAfter hs f hf row
      rw [hs.orTrue h row, ih, Simple.Holds]
      simp
  | .test x, out, h, row => by
      simp only [Simple.compile, Run.result_bind_eq_ok, Operand.resolve_eq_ok] at h
      obtain ⟨o, hx, h⟩ := h
      rw [hs.test hx h row, Simple.Holds]
  | .compare x op (.group f), out, h, row => by
      simp only [Simple.compile, Run.result_bind_eq_ok, Operand.resolve_eq_ok] at h
      obtain ⟨o, hx, h⟩ := h
      split at h
      · next c r hrel =>
          simp only [Run.result_report_bind, Run.result_bind_eq_ok, Relation.enter_eq_ok] at h
          obtain ⟨inner?, hf, inner, hinner, hembed⟩ := h
          cases hx with
          | literal _ _ => cases hrel
          | column hc =>
              obtain ⟨r, hr, hpair⟩ := Option.map_eq_some_iff.1 hrel
              cases hpair
              obtain ⟨hbehind, hrelated⟩ := hs.related (Schema.mem_of_column? hc).1 hr
              -- The embedding may be any function, so the inner outputs have to be equal.
              have hmeaning : inner = Filter.Holds (R.behind c.name) f := by
                funext row
                rw [hbehind.orTrue hinner row, Filter.holds_of_compileAfter hbehind f hf row]
                simp
              rw [hrelated inner out hembed, hmeaning, Simple.Holds]
      · simp at h
  | .compare x op (.comparable y), out, h, row => by
      simp only [Simple.compile, Run.result_bind_eq_ok, Operand.resolve_eq_ok] at h
      obtain ⟨o, hx, h⟩ := h
      split at h
      · simp at h
      · simp only [Run.result_bind_eq_ok, Operand.resolve_eq_ok] at h
        obtain ⟨o', hy, h⟩ := h
        rw [hs.compare hx hy h row, Simple.Holds]

theorem Clause.holds_of_compileAfter {R : Readings Row} {s : Schema (Row → Prop)}
    (hs : s.Faithful R) : (c : List Term) → {before? out? : Option (Row → Prop)} →
      (Clause.compileAfter s before? c).result = .ok out? →
      (out? = none ↔ before? = none ∧ c = []) ∧
      ∀ row, out?.elim False (· row) ↔ before?.elim False (· row) ∨ Clause.Holds R c row
  | [], before?, out?, h => by
      cases h
      simp [Clause.Holds]
  | term :: r, before?, out?, h => by
      simp only [Clause.compileAfter, Run.result_bind_eq_ok] at h
      obtain ⟨last, hlast, joined, hjoined, h⟩ := h
      have ih := Clause.holds_of_compileAfter hs r h
      have iht := Term.holds_of_compile hs term hlast
      refine ⟨by simp [ih.1], fun row => ?_⟩
      rw [ih.2 row, Clause.Holds, ← or_assoc, ← iht row, ← hs.join_or hjoined row]
      rfl

theorem Filter.holds_of_compileAfter {R : Readings Row} {s : Schema (Row → Prop)}
    (hs : s.Faithful R) : (f : List (List Term)) → {before? out? : Option (Row → Prop)} →
      (Filter.compileAfter s before? f).result = .ok out? →
      ∀ row, out?.elim True (· row) ↔ before?.elim True (· row) ∧ Filter.Holds R f row
  | [], before?, out?, h, row => by
      cases h
      simp [Filter.Holds]
  | clause :: r, before?, out?, h, row => by
      simp only [Filter.compileAfter, Run.result_bind_eq_ok] at h
      obtain ⟨clause?, hclause, h⟩ := h
      have ihc := Clause.holds_of_compileAfter hs clause hclause
      -- A clause gives no output exactly when it has no terms, and then it asks for nothing.
      cases clause? with
      | none =>
          obtain ⟨-, rfl⟩ := ihc.1.1 rfl
          rw [Filter.holds_of_compileAfter hs r h row]
          simp [Filter.Holds]
      | some last =>
          simp only [Run.result_bind_eq_ok] at h
          obtain ⟨joined, hjoined, h⟩ := h
          have hne : clause ≠ [] := by
            rintro rfl
            simpa using ihc.1
          have hlast : last row ↔ Clause.Holds R clause row := by simpa using ihc.2 row
          rw [Filter.holds_of_compileAfter hs r h row, Filter.Holds, ← and_assoc, ← hlast]
          simp [hs.join_and hjoined row, hne]

end

/-- Compiling keeps the meaning of a filter, for every schema whose operations are faithful. -/
theorem Schema.holds_iff_of_compileFilter {R : Readings Row} {s : Schema (Row → Prop)}
    {f : Filter} {out : Row → Prop} (hs : s.Faithful R)
    (h : (s.compileFilter f).result = .ok out) (row : Row) :
    out row ↔ ∀ clause ∈ f, clause ≠ [] → ∃ term ∈ clause, term.Holds R row := by
  obtain ⟨out?, hf, h⟩ := Run.result_bind_eq_ok.1 h
  rw [hs.orTrue h row, Filter.holds_of_compileAfter hs f hf row, Filter.holds_iff]
  simp

end

/-! ## Persons and their children -/

structure Person where
  age : Int64
  /-- The ages of the children, who have none of their own here. -/
  children : List Int64

namespace Person

def reading : Reading Person where
  literal op _ v p := (Value.int p.age).compare op v = true
  fields op _ _ p := (Value.int p.age).compare op (.int p.age) = true
  related _ P p := ∃ age ∈ p.children, P ⟨age, []⟩

def operations : List (Operation (Person → Prop)) := [
  (Operation.named Comparison.ge.symbol).on .int fun (column, n) =>
    .ok (reading.literal .ge column (.int n)),
  (Operation.named Operation.notName).on .combine fun
    | [P] => .ok fun p => ¬ P p
    | _ => .error "one operand expected"]

def schema : Schema (Person → Prop) where
  columns := [(Column.named "child").filterable.relatedBy
    ⟨[(Column.named "age").filterable], operations⟩ fun P => .ok (reading.related "child" P)]
  operations

theorem faithful_operations : ∀ op ∈ operations, op.Faithful reading := by
  intro op hop
  simp only [operations, List.mem_cons, List.not_mem_nil, or_false] at hop
  -- An operation is asked for under its own name only, and has one callback.
  rcases hop with rfl | rfl
  · constructor
    case int =>
      rintro c hname f ⟨column, n⟩ out hf hout row
      have hname : Comparison.ge.symbol = c.symbol := hname
      obtain rfl := Comparison.symbol_injective hname
      cases hf
      cases hout
      exact Iff.rfl
    all_goals first
      | exact fun hname => absurd hname (by decide)
      | exact fun _ _ _ _ _ hf => nomatch hf
  · constructor
    case negation =>
      rintro - f inner out hf hout row
      cases hf
      cases hout
      exact Iff.rfl
    all_goals first
      | exact fun hname => absurd hname (by decide)
      | exact fun _ _ _ _ _ hf => nomatch hf

theorem faithful_schema : schema.Faithful fun _ => reading := by
  refine .mk faithful_operations (fun c hc r hr => ?_) (fun c hc r hr inner out hout => ?_)
  · simp only [schema, List.mem_singleton] at hc
    subst hc
    cases hr
    refine .mk faithful_operations (fun c hc r hr => ?_) (fun c hc r hr => ?_)
    · rw [List.mem_singleton.1 hc] at hr
      cases hr
    · rw [List.mem_singleton.1 hc] at hr
      cases hr
  · simp only [schema, List.mem_singleton] at hc
    subst hc
    cases hr
    cases hout
    rfl

end Person

theorem Schema.holds_iff_of_compileFilter_children :
    let f : Filter := [[.mk true (.compare (.plain (.ident "child") []) .has (.group
      [[.mk false (.compare (.plain (.ident "age") []) .ge (.comparable (.plain (.int 6) [])))]]))]]
    let out (p : Person) := ¬ ∃ age ∈ p.children, (Value.int age).compare .ge (.int 6) = true
    Person.schema.Faithful (fun _ => Person.reading) ∧
      (Person.schema.compileFilter f).result = .ok out ∧
      ∀ p, out p ↔
        ∀ clause ∈ f, clause ≠ [] → ∃ term ∈ clause, term.Holds (fun _ => Person.reading) p :=
  ⟨Person.faithful_schema, rfl, Schema.holds_iff_of_compileFilter Person.faithful_schema rfl⟩

end Sift
