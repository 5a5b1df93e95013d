import Sift.Proofs.Compile.Catalog

/-!
# Building with backends

What a catalog makes of a filter or of an order, said without operations, shapes and callbacks: the
backend is asked for a column, a literal and a function of what is built already, and nothing is
built after an answer that fails. Compiling against the schema of the catalog gives the same.
-/

namespace Sift

variable {T : Type}

/-! ## What a backend is asked for -/

namespace Backend

def buildConstant (b : Backend T) (value : Bool) : Except CompileError T :=
  (b.standalone (.boolean value)).mapError
    (.callback (if value then Operation.trueName else Operation.falseName))

/-- The left operand is built before the right one. -/
def buildComparison (b : Backend T) (op : Comparison) (left right : Value) :
    Except CompileError T :=
  Except.mapError (.callback op.symbol) do
    let left ← b.standalone left
    let right ← b.standalone right
    b.apply op.symbol none [left, right]

/-- A failure is reported under the name of the operation, which is not that of the function. -/
def buildCombination (b : Backend T) (name function : String) (outs : List T) :
    Except CompileError T :=
  (b.apply function none outs).mapError (.callback name)

def buildJoin (b : Backend T) (name function : String) (before? : Option T) (out : T) :
    Except CompileError T :=
  match before? with
  | none => return out
  | some before => b.buildCombination name function [before, out]

def buildOrTrue (b : Backend T) : Option T → Except CompileError T
  | some out => return out
  | none => b.buildConstant true

def buildTest (b : Backend T) : Value → Except CompileError T
  | .ident column => b.buildComparison .eq (.ident column) (.boolean true)
  | v => b.buildConstant !v.isZero

/-- Of a column and a literal the column comes first, wherever it stands. -/
def buildCompare (b : Backend T) (op : Comparison) (left right : Value) : Except CompileError T :=
  match left.ident?, right.ident? with
  | none, none => b.buildConstant (left.compare op right)
  | none, some _ => b.buildComparison op right left
  | some _, _ => b.buildComparison op left right

def buildOrdering (b : Backend T) (name function column : String) : Except CompileError T :=
  Except.mapError (.callback name) do
    let column ← b.standalone (.ident column)
    b.apply function none [column]

end Backend

/-! ## Filters and orders -/

namespace Catalog

/-- A filterable column, as an identifier, or a literal. -/
def operand (k : Catalog T) : Comparable → Except CompileError Value
  | .call .. => .error (.unsupported .call)
  | .plain _ (_ :: _) => .error (.unsupported .path)
  | .plain .wildcard [] => .error (.unsupported .wildcard)
  | .plain (.ident name) [] =>
    if (k.entry? name Capability.filterable).isSome then return .ident name
    else .error (.unknownField name)
  | .plain v [] => return v

/-- The column that an operand is, with what stands behind it. -/
def link? (k : Catalog T) (operand : Value) : Option (String × Link T) :=
  operand.ident?.bind fun column =>
    ((k.entry? column Capability.filterable).bind Entry.link?).map (column, ·)

end Catalog

mutual

def Term.build (k : Catalog T) : Term → Except CompileError T
  | .mk negated body => do
    let out ← Simple.build k body
    if negated then k.backend.buildCombination Operation.notName "NOT" [out] else return out

def Simple.build (k : Catalog T) : Simple → Except CompileError T
  | .group f => do k.backend.buildOrTrue (← Filter.buildAfter k none f)
  | .test x => do k.backend.buildTest (← k.operand x)
  | .compare x op (.group f) => do
    match op, k.link? (← k.operand x) with
    | .has, some (column, l) =>
      let inner ← l.catalog.backend.buildOrTrue (← Filter.buildAfter l.catalog none f)
      (l.backend.within [column] fun _ => .ok inner).mapError (.callback column)
    | _, _ => .error (.unsupported .relation)
  | .compare x op (.comparable y) => do
    let left ← k.operand x
    if (k.link? left).isSome then .error (.unsupported .relation)
    else k.backend.buildCompare op left (← k.operand y)

/-- The clause joined to `before?`, which holds the terms before it. -/
def Clause.buildAfter (k : Catalog T) (before? : Option T) :
    List Term → Except CompileError (Option T)
  | [] => return before?
  | term :: r => do
    let out ← Term.build k term
    Clause.buildAfter k (some (← k.backend.buildJoin Operation.orName "OR" before? out)) r

/-- The filter joined to `before?`, which holds the clauses before it. -/
def Filter.buildAfter (k : Catalog T) (before? : Option T) :
    List (List Term) → Except CompileError (Option T)
  | [] => return before?
  | clause :: r => do
    match ← Clause.buildAfter k none clause with
    | none => Filter.buildAfter k before? r
    | some out =>
      Filter.buildAfter k (some (← k.backend.buildJoin Operation.andName "AND" before? out)) r

end

def Key.build (k : Catalog T) (key : Key) : Except CompileError T :=
  match key.path with
  | [name] =>
    if (k.entry? name Capability.sortable).isSome then
      k.backend.buildOrdering key.direction (if key.descending then "DESC" else "ASC") name
    else .error (.unknownField name)
  | _ => .error (.unsupported .path)

namespace Catalog

def buildFilter (k : Catalog T) (f : Filter) : Except CompileError T := do
  k.backend.buildOrTrue (← Filter.buildAfter k none f)

def buildOrder (k : Catalog T) (o : Order) : Except CompileError (List T) := o.mapM (Key.build k)

end Catalog

/-! ## Compiling builds the same -/

variable {k : Catalog T} {s : Schema T}

namespace Catalog

theorem callback?_of_mem (h : k.declare = .ok s) {op : Operation T}
    (hop : op ∈ k.backend.operations) (slot : Slot) :
    s.callback? op.name slot = op.callback? slot := by
  rw [callback?_of_declare h, Backend.operation?_of_mem hop, Option.bind_some]

/-- An operation of the backend answers under its name. -/
theorem result_call (h : k.declare = .ok s) {op : Operation T} (hop : op ∈ k.backend.operations)
    (slot : Slot) {f : Callback T slot} (hf : op.callback? slot = some f) (operands : slot.Args T) :
    (s.call op.name slot operands).result = (f operands).mapError (.callback op.name) := by
  rw [Schema.call_eq, callback?_of_mem h hop, hf]
  exact Run.result_ofAnswer op.name (f operands)

theorem result_constant (h : k.declare = .ok s) (value : Bool) :
    (s.constant value).result = k.backend.buildConstant value := by
  have hop : k.backend.constant (if value then Operation.trueName else Operation.falseName) value ∈
      k.backend.operations := by
    cases value <;> simp [Backend.operations]
  exact result_call h hop .constant rfl ()

theorem result_comparison (h : k.declare = .ok s) (op : Comparison) (slot : Slot)
    {f : Callback T slot} (hf : (k.backend.comparison op).callback? slot = some f)
    (operands : slot.Args T) :
    (s.call op.symbol slot operands).result = (f operands).mapError (.callback op.symbol) := by
  have hop : k.backend.comparison op ∈ k.backend.operations := by
    cases op <;> simp [Backend.operations, Comparison.all]
  exact result_call h hop slot hf operands

theorem result_combine (h : k.declare = .ok s) {name function : String}
    (hop : k.backend.combination name function ∈ k.backend.operations) (outs : List T) :
    (s.combine name outs).result = k.backend.buildCombination name function outs :=
  result_call h hop .combine rfl outs

theorem result_join (h : k.declare = .ok s) {name function : String}
    (hop : k.backend.combination name function ∈ k.backend.operations) (before? : Option T)
    (out : T) :
    (s.join name before? out).result = k.backend.buildJoin name function before? out := by
  cases before? with
  | none => rfl
  | some before => exact result_combine h hop [before, out]

theorem result_orTrue (h : k.declare = .ok s) (out? : Option T) :
    (s.orTrue out?).result = k.backend.buildOrTrue out? := by
  cases out? with
  | none => exact result_constant h true
  | some out => rfl

theorem result_compareColumn (h : k.declare = .ok s) (op : Comparison) (column : String) {v : Value}
    (hwild : v.isWildcard = false) (hident : v.ident? = none) :
    (Operand.compareColumn s op column v).result =
      k.backend.buildComparison op (.ident column) v := by
  cases v with
  | wildcard => cases hwild
  | ident name => cases hident
  | int n => exact result_comparison h op .int rfl (column, n)
  | float x => exact result_comparison h op .float rfl (column, x)
  | string t => exact result_comparison h op .string rfl (column, t)
  | boolean b => exact result_comparison h op .boolean rfl (column, b)

end Catalog

namespace Operand

/-- A column as an identifier, and a literal as itself. -/
def value : Operand T → Value
  | column c => .ident c.name
  | literal v => v

end Operand

namespace Catalog

theorem result_resolve_bind (h : k.declare = .ok s) (x : Comparable) {α : Type}
    {f : Operand T → Compiled α} {g : Value → Except CompileError α}
    (hfg : ∀ o, Operand.Resolves s x o → (f o).result = g o.value) :
    (Operand.resolve s x >>= f).result = k.operand x >>= g := by
  rw [Run.result_bind]
  cases x with
  | call v path args => rfl
  | plain v path =>
      cases path with
      | cons field path => rfl
      | nil =>
          cases v with
          | wildcard => rfl
          | ident name =>
              have hrel := rel_entry? h name Capability.filterable
              rw [Operand.resolve_ident, operand]
              generalize k.entry? name Capability.filterable = e? at hrel
              generalize hc : s.column? name Capability.filterable = c? at hrel
              cases hrel with
              | none => rfl
              | some hec =>
                  obtain rfl := (Schema.mem_of_column? hc).2.1
                  exact hfg _ (.column hc)
          | int n | float x | string t | boolean b => exact hfg _ (.literal rfl rfl)

theorem result_test (h : k.declare = .ok s) {x : Comparable} {o : Operand T}
    (ho : Operand.Resolves s x o) :
    (Operand.test s o).result = k.backend.buildTest o.value := by
  cases ho with
  | @column c hc => exact result_comparison h .eq .boolean rfl (c.name, true)
  | @literal v hwild hident =>
      cases v with
      | wildcard => cases hwild
      | ident name => cases hident
      | int n | float x | string t | boolean b => exact result_constant h _

theorem result_compare (h : k.declare = .ok s) (op : Comparison) {x y : Comparable}
    {left right : Operand T} (hleft : Operand.Resolves s x left)
    (hright : Operand.Resolves s y right) :
    (Operand.compare s op left right).result =
      k.backend.buildCompare op left.value right.value := by
  cases hleft with
  | @column c hc =>
      cases hright with
      | @column c' hc' => exact result_comparison h op .fields rfl (c.name, c'.name)
      | literal hwild hident => exact result_compareColumn h op c.name hwild hident
  | @literal v hwild hident =>
      have hleft : (Operand.literal v : Operand T).value.ident? = none := hident
      cases hright with
      | @column c hc =>
          rw [Backend.buildCompare, hleft]
          exact result_compareColumn h op c.name hwild hident
      | @literal w hwild' hident' =>
          have hright : (Operand.literal w : Operand T).value.ident? = none := hident'
          rw [Backend.buildCompare, hleft, hright]
          exact result_constant h _

/-- What stands behind an operand is declared from the link that the catalog has there. -/
theorem rel_link? (h : k.declare = .ok s) {x : Comparable} {o : Operand T}
    (ho : Operand.Resolves s x o) :
    Option.Rel (fun p q => p.1 = q.1.name ∧ p.2.Declares p.1 q.2) (k.link? o.value)
      o.relation? := by
  cases ho with
  | @column c hc =>
      have hrel := rel_entry? h c.name Capability.filterable
      rw [hc] at hrel
      simp only [link?, Operand.value, Value.ident?, Option.bind_some, Operand.relation?]
      generalize k.entry? c.name Capability.filterable = e? at hrel
      cases hrel with
      | @some e _ hec =>
          have hname := hec.name
          have hlink := hec.relation
          simp only [Option.bind_some]
          generalize e.link? = l? at hlink
          generalize c.relation? = r? at hlink
          cases hlink with
          | none => exact .none
          | some hlr => exact .some ⟨rfl, hname ▸ hlr⟩
  | literal hwild hident =>
      rw [link?, Operand.value, hident]
      exact .none

end Catalog

mutual

theorem Term.result_compile {k : Catalog T} {s : Schema T} (h : k.declare = .ok s)
    (t : Term) :
    (Term.compile s t).result = Term.build k t := by
  obtain ⟨negated, body⟩ := t
  rw [Term.compile, Term.build, Run.result_bind, Simple.result_compile h body]
  cases negated with
  | false => rfl
  | true =>
      refine bind_congr fun out => ?_
      exact Catalog.result_combine h (by simp [Backend.operations]) [out]

theorem Simple.result_compile {k : Catalog T} {s : Schema T} (h : k.declare = .ok s)
    (body : Simple) :
    (Simple.compile s body).result = Simple.build k body := by
  cases body with
  | group f =>
      rw [Simple.compile, Simple.build, Run.result_bind, Filter.result_compileAfter h none f]
      exact bind_congr fun out? => Catalog.result_orTrue h out?
  | test x =>
      rw [Simple.compile, Simple.build]
      exact Catalog.result_resolve_bind h x fun o ho => Catalog.result_test h ho
  | compare x op right =>
      cases right with
      | group f =>
          rw [Simple.compile, Simple.build]
          refine Catalog.result_resolve_bind h x fun o ho => ?_
          have hlink := Catalog.rel_link? h ho
          generalize k.link? o.value = l? at hlink
          generalize o.relation? = r? at hlink
          cases hlink with
          | none => cases op <;> rfl
          | @some p q hpq =>
              obtain ⟨column, l⟩ := p
              obtain ⟨c, r⟩ := q
              obtain ⟨rfl, hr⟩ := hpq
              cases op with
              | has =>
                  rw [Run.result_report_bind, Run.result_bind,
                    Filter.result_compileAfter hr.schema none f]
                  refine bind_congr fun out? => ?_
                  rw [Run.result_bind, Catalog.result_orTrue hr.schema out?]
                  refine bind_congr fun inner => ?_
                  rw [Relation.enter_eq, Run.result_ofAnswer, hr.embed]
                  rfl
              | eq | ne | gt | ge | lt | le => rfl
      | comparable y =>
          rw [Simple.compile, Simple.build]
          refine Catalog.result_resolve_bind h x fun left hleft => ?_
          rw [isSome_eq_of_rel (Catalog.rel_link? h hleft)]
          cases left.relation?.isSome with
          | true => rfl
          | false =>
              refine Catalog.result_resolve_bind h y fun right hright => ?_
              exact Catalog.result_compare h op hleft hright

theorem Clause.result_compileAfter {k : Catalog T} {s : Schema T} (h : k.declare = .ok s)
    (before? : Option T) (clause : List Term) :
    (Clause.compileAfter s before? clause).result = Clause.buildAfter k before? clause := by
  cases clause with
  | nil => rfl
  | cons term r =>
      have hop : k.backend.combination Operation.orName "OR" ∈ k.backend.operations := by
        simp [Backend.operations]
      rw [Clause.compileAfter, Clause.buildAfter, Run.result_bind, Term.result_compile h term]
      refine bind_congr fun out => ?_
      rw [Run.result_bind, Catalog.result_join h hop before? out]
      exact bind_congr fun joined => Clause.result_compileAfter h (some joined) r

theorem Filter.result_compileAfter {k : Catalog T} {s : Schema T} (h : k.declare = .ok s)
    (before? : Option T) (f : List (List Term)) :
    (Filter.compileAfter s before? f).result = Filter.buildAfter k before? f := by
  cases f with
  | nil => rfl
  | cons clause r =>
      have hop : k.backend.combination Operation.andName "AND" ∈ k.backend.operations := by
        simp [Backend.operations]
      rw [Filter.compileAfter, Filter.buildAfter, Run.result_bind,
        Clause.result_compileAfter h none clause]
      refine bind_congr fun out? => ?_
      cases out? with
      | none => exact Filter.result_compileAfter h before? r
      | some out =>
          rw [Run.result_bind, Catalog.result_join h hop before? out]
          exact bind_congr fun joined => Filter.result_compileAfter h (some joined) r

end

theorem Key.result_compile (h : k.declare = .ok s) (key : Key) :
    (key.compile s).result = key.build k := by
  obtain ⟨path, descending⟩ := key
  match path with
  | [] | _ :: _ :: _ => rfl
  | [name] =>
      have hop : k.backend.ordering (Key.direction ⟨[name], descending⟩)
          (if descending then "DESC" else "ASC") ∈ k.backend.operations := by
        cases descending <;> simp [Backend.operations, Key.direction]
      have hcallback : s.callback? (Key.direction ⟨[name], descending⟩) .field = _ :=
        Catalog.callback?_of_mem h hop .field
      simp only [Key.compile_eq, Key.build, isSome_eq_of_rel (Catalog.rel_entry? h name _)]
      cases s.column? name Capability.sortable with
      | none => rfl
      | some c =>
          simp only [hcallback]
          exact Run.result_ofAnswer _ _

namespace Catalog

/-- Compiling asks the backends of a catalog for nothing else, in no other order, and reports their
failures under the names that they were asked under. -/
theorem compile_eq_build (h : k.declare = .ok s) :
    (∀ f, (s.compileFilter f).result = k.buildFilter f) ∧
      ∀ o, (s.compileOrder o).result = k.buildOrder o := by
  constructor
  · intro f
    rw [Schema.compileFilter, buildFilter, Run.result_bind, Filter.result_compileAfter h none f]
    exact bind_congr fun out? => result_orTrue h out?
  · intro o
    induction o with
    | nil => rfl
    | cons key r ih =>
        rw [Schema.compileOrder, buildOrder, List.mapM_cons, Run.result_bind,
          Key.result_compile h key]
        refine bind_congr fun out => ?_
        rw [Run.result_bind, ih]
        rfl

end Catalog

/-! ## Two backends -/

namespace Wording

/-- Says everything in words, the owner of a column before its name. There are none for numbers. -/
def words (owner : String) : Backend (List String) where
  standalone
    | .ident column => .ok [owner, column]
    | .string text => .ok [text]
    | .boolean value => .ok [toString value]
    | _ => .error "no numbers"
  apply function _ operands := .ok (function :: operands.flatten)

def followed : RelationalBackend (List String) where
  toBackend := words "person"
  within path build := do return path ++ (← build (words "pet"))

/-- Follows no relation. -/
def closed : RelationalBackend (List String) where
  toBackend := words "pet"
  within _ _ := .error "no rows"

def animals : Catalog (List String) where
  backend := words "pet"
  entries := [.plain "name" Capability.filterable,
    .related "toys" false ⟨closed, ⟨words "toy", []⟩⟩]

def persons : Catalog (List String) where
  backend := words "person"
  entries := [.plain "age" (Capability.filterable.union Capability.sortable),
    .related "pets" false ⟨followed, animals⟩]

end Wording

theorem Catalog.compile_eq_build_persons :
    let age : Comparable := .plain (.ident "age") []
    let name : Comparable := .plain (.ident "name") []
    let rex : Comparable := .plain (.string "rex") []
    let within (column : String) (f : Filter) : Simple :=
      .compare (.plain (.ident column) []) .has (.group f)
    let f : Filter :=
      [[.mk true (within "pets" [[.mk false (.compare rex .eq (.comparable name))]])],
        [.mk false (.test age)]]
    let g : Filter := [[.mk false (.compare age .lt (.comparable (.plain (.float .zero) [])))]]
    let toys : Filter := [[.mk false (within "pets" [[.mk false (within "toys" [])]])]]
    let o : Order := [⟨["age"], true⟩]
    ∃ s, Wording.persons.declare = .ok s ∧
      ((s.compileFilter f).result = Wording.persons.buildFilter f ∧
        Wording.persons.buildFilter f =
          .ok ["AND", "NOT", "pets", "=", "pet", "name", "rex", "=", "person", "age", "true"]) ∧
      ((s.compileFilter g).result = Wording.persons.buildFilter g ∧
        Wording.persons.buildFilter g = .error (.callback "<" "no numbers")) ∧
      ((s.compileFilter toys).result = Wording.persons.buildFilter toys ∧
        Wording.persons.buildFilter toys = .error (.callback "toys" "no rows")) ∧
      (s.compileOrder o).result = Wording.persons.buildOrder o ∧
        Wording.persons.buildOrder o = .ok [["DESC", "person", "age"]] := by
  intro age name rex within f g toys o
  obtain ⟨s, hs⟩ : ∃ s, Wording.persons.declare = .ok s := ⟨_, rfl⟩
  obtain ⟨hfilter, horder⟩ := compile_eq_build hs
  exact ⟨s, hs, ⟨hfilter f, rfl⟩, ⟨hfilter g, rfl⟩, ⟨hfilter toys, rfl⟩, horder o, rfl⟩

end Sift
