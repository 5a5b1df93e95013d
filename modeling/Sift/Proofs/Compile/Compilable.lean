import Sift.Proofs.Compile.Success
import Sift.Proofs.Schema.Signatures

/-!
# The filters that compile

`Filter.Compilable s f` says, without compiling, that each operand of `f` stands for something in
the schema that governs its place. A filter that compiles is so under every schema, and a filter
that is so compiles under a schema that has all operations, none of which fails.
-/

namespace Sift

variable {T : Type}

/-! ## Operands that stand for something -/

namespace Comparable

/-- A literal, or the name of a filterable column. -/
def Compilable (s : Schema T) : Comparable → Prop
  | .call .. => False
  | .plain v path =>
    path = [] ∧ v ≠ .wildcard ∧
      ∀ name, v = .ident name → ∃ c, s.column? name Capability.filterable = some c

/-- The relational column that the operand names. -/
def relation? (s : Schema T) : Comparable → Option (Column T × Relation T)
  | .plain (.ident name) [] =>
    (s.column? name Capability.filterable).bind fun c => c.relation?.map (c, ·)
  | _ => none

variable {s : Schema T} {x : Comparable} {o : Operand T}

theorem compilable_iff_resolves : x.Compilable s ↔ ∃ o, Operand.Resolves s x o := by
  constructor
  · intro h
    cases x with
    | call v path args => exact h.elim
    | plain v path =>
        obtain ⟨rfl, hwild, hident⟩ := h
        cases v with
        | wildcard => exact absurd rfl hwild
        | ident name =>
            obtain ⟨c, hc⟩ := hident name rfl
            obtain rfl := (Schema.mem_of_column? hc).2.1
            exact ⟨_, .column hc⟩
        | int _ | float _ | string _ | boolean _ => exact ⟨_, .literal rfl rfl⟩
  · rintro ⟨o, hx⟩
    cases hx with
    | @column c hc =>
        refine ⟨rfl, by simp, fun name hname => ?_⟩
        cases hname
        exact ⟨c, hc⟩
    | literal hwild hident =>
        refine ⟨rfl, ?_, ?_⟩
        · rintro rfl
          cases hwild
        · rintro name rfl
          cases hident

theorem relation?_of_resolves (h : Operand.Resolves s x o) : x.relation? s = o.relation? := by
  cases h with
  | column hc => simp [relation?, hc, Operand.relation?]
  | @literal v _ hident =>
      cases v with
      | ident name => cases hident
      | _ => rfl

end Comparable

/-! ## Filters in which every operand does -/

mutual

def Term.Compilable (s : Schema T) : Term → Prop
  | .mk _ body => Simple.Compilable s body

def Simple.Compilable (s : Schema T) : Simple → Prop
  | .group f => Filter.Compilable s f
  | .test x => x.Compilable s
  | .compare x op (.group f) =>
    x.Compilable s ∧ op = .has ∧
      ∃ c r, x.relation? s = some (c, r) ∧ Filter.Compilable r.schema f
  | .compare x _ (.comparable y) => x.Compilable s ∧ x.relation? s = none ∧ y.Compilable s

def Clause.Compilable (s : Schema T) : List Term → Prop
  | [] => True
  | term :: r => Term.Compilable s term ∧ Clause.Compilable s r

def Filter.Compilable (s : Schema T) : List (List Term) → Prop
  | [] => True
  | clause :: r => Clause.Compilable s clause ∧ Filter.Compilable s r

end

/-! ## What compiles is compilable -/

mutual

theorem Term.compilable_of_compile {s : Schema T} : (t : Term) → {out : T} →
    (t.compile s).result = .ok out → t.Compilable s
  | .mk negated body, out, h => by
      simp only [Term.compile, Run.result_bind_eq_ok] at h
      obtain ⟨inner, hinner, -⟩ := h
      exact Simple.compilable_of_compile body hinner

theorem Simple.compilable_of_compile {s : Schema T} : (b : Simple) → {out : T} →
    (b.compile s).result = .ok out → b.Compilable s
  | .group f, out, h => by
      simp only [Simple.compile, Run.result_bind_eq_ok] at h
      obtain ⟨out?, hf, -⟩ := h
      exact Filter.compilable_of_compileAfter f hf
  | .test x, out, h => by
      simp only [Simple.compile, Run.result_bind_eq_ok, Operand.resolve_eq_ok] at h
      obtain ⟨o, hx, -⟩ := h
      exact Comparable.compilable_iff_resolves.2 ⟨o, hx⟩
  | .compare x op (.group f), out, h => by
      simp only [Simple.compile, Run.result_bind_eq_ok, Operand.resolve_eq_ok] at h
      obtain ⟨o, hx, h⟩ := h
      split at h
      · next c r hrel =>
          simp only [Run.result_report_bind, Run.result_bind_eq_ok] at h
          obtain ⟨inner?, hf, -⟩ := h
          exact ⟨Comparable.compilable_iff_resolves.2 ⟨o, hx⟩, rfl, c, r,
            (Comparable.relation?_of_resolves hx).trans hrel,
            Filter.compilable_of_compileAfter f hf⟩
      · simp at h
  | .compare x op (.comparable y), out, h => by
      simp only [Simple.compile, Run.result_bind_eq_ok, Operand.resolve_eq_ok] at h
      obtain ⟨o, hx, h⟩ := h
      split at h
      · simp at h
      · next hrel =>
          simp only [Run.result_bind_eq_ok, Operand.resolve_eq_ok] at h
          obtain ⟨o', hy, -⟩ := h
          rw [Option.not_isSome_iff_eq_none] at hrel
          exact ⟨Comparable.compilable_iff_resolves.2 ⟨o, hx⟩,
            (Comparable.relation?_of_resolves hx).trans hrel,
            Comparable.compilable_iff_resolves.2 ⟨o', hy⟩⟩

theorem Clause.compilable_of_compileAfter {s : Schema T} : (c : List Term) →
    {before? out? : Option T} → (Clause.compileAfter s before? c).result = .ok out? →
    Clause.Compilable s c
  | [], _, _, _ => trivial
  | term :: r, before?, out?, h => by
      simp only [Clause.compileAfter, Run.result_bind_eq_ok] at h
      obtain ⟨out, hterm, joined, -, h⟩ := h
      exact ⟨Term.compilable_of_compile term hterm, Clause.compilable_of_compileAfter r h⟩

theorem Filter.compilable_of_compileAfter {s : Schema T} : (f : List (List Term)) →
    {before? out? : Option T} → (Filter.compileAfter s before? f).result = .ok out? →
    Filter.Compilable s f
  | [], _, _, _ => trivial
  | clause :: r, before?, out?, h => by
      simp only [Filter.compileAfter, Run.result_bind_eq_ok] at h
      obtain ⟨clause?, hclause, h⟩ := h
      refine ⟨Clause.compilable_of_compileAfter clause hclause, ?_⟩
      cases clause? with
      | none => exact Filter.compilable_of_compileAfter r h
      | some out =>
          simp only [Run.result_bind_eq_ok] at h
          obtain ⟨joined, -, h⟩ := h
          exact Filter.compilable_of_compileAfter r h

end

/-! ## Complete schemas -/

/-- The names of the operations that filters ask for, with the operands they are given. -/
def Operation.required : List (String × Slot) :=
  (Comparison.all.flatMap fun op =>
    [Slot.int, .float, .boolean, .string, .fields].map fun slot => (op.symbol, slot)) ++
  [(trueName, .constant), (falseName, .constant), (andName, .combine), (orName, .combine),
    (notName, .combine)]

namespace Schema

/-- There is an operation of the name that takes these operands. -/
def Registers (s : Schema T) (name : String) (slot : Slot) : Prop :=
  ∃ op ∈ s.operations, op.name = name ∧ (op.callback? slot).isSome = true

/-- All operations that filters ask for are there, here and behind the relational columns, and no
callback fails. -/
inductive Complete : Schema T → Prop
  | mk {s : Schema T} :
      (∀ entry ∈ Operation.required, s.Registers entry.1 entry.2) →
      (∀ op ∈ s.operations, ∀ slot f, op.callback? slot = some f →
        ∀ operands, ∃ out, f operands = .ok out) →
      (∀ c ∈ s.columns, ∀ r, c.relation? = some r → Complete r.schema) →
      (∀ c ∈ s.columns, ∀ r, c.relation? = some r → ∀ inner, ∃ out, r.embed inner = .ok out) →
      Complete s

theorem Registers.exists_operation {s : Schema T} {name : String} {slot : Slot}
    (h : s.Registers name slot) :
    ∃ op f, s.operation? name slot.flag = some op ∧ op.callback? slot = some f := by
  obtain ⟨op, hop, hname, hslot⟩ := h
  have hsome : (s.operation? name slot.flag).isSome = true := by
    rw [operation?, List.find?_isSome]
    exact ⟨op, hop, by simp [hname, Operation.supports_flag.2 hslot]⟩
  obtain ⟨op', hop'⟩ := Option.isSome_iff_exists.1 hsome
  have hsupports := (mem_of_operation? hop').2.2
  obtain ⟨f, hf⟩ := Option.isSome_iff_exists.1 (Operation.supports_flag.1 hsupports)
  exact ⟨op', f, hop', hf⟩

namespace Complete

variable {s : Schema T}

theorem call (hs : s.Complete) {name : String} {slot : Slot}
    (h : (name, slot) ∈ Operation.required) (operands : slot.Args T) :
    ∃ out, (s.call name slot operands).result = .ok out := by
  cases hs with
  | mk hregisters htotal _ _ =>
      obtain ⟨op, f, hop, hf⟩ := (hregisters _ h).exists_operation
      obtain ⟨out, hout⟩ := htotal op (mem_of_operation? hop).1 slot f hf operands
      exact ⟨out, call_eq_ok.2 ⟨op, f, hop, hf, hout⟩⟩

theorem related (hs : s.Complete) {name : String} {c : Column T} {r : Relation T}
    (hc : s.column? name Capability.filterable = some c) (hr : c.relation? = some r) :
    r.schema.Complete ∧ ∀ inner, ∃ out, r.embed inner = .ok out := by
  have hmem := (mem_of_column? hc).1
  cases hs with
  | mk _ _ hbehind hembed => exact ⟨hbehind c hmem r hr, hembed c hmem r hr⟩

theorem constant (hs : s.Complete) (value : Bool) :
    ∃ out, (s.constant value).result = .ok out := by
  cases value with
  | true =>
      have h : (Operation.trueName, Slot.constant) ∈ Operation.required := by decide
      exact hs.call h ()
  | false =>
      have h : (Operation.falseName, Slot.constant) ∈ Operation.required := by decide
      exact hs.call h ()

theorem combine (hs : s.Complete) (name : String) (h : (name, .combine) ∈ Operation.required)
    (outs : List T) : ∃ out, (s.combine name outs).result = .ok out :=
  hs.call h outs

theorem join (hs : s.Complete) (name : String) (h : (name, .combine) ∈ Operation.required)
    (before? : Option T) (out : T) : ∃ joined, (s.join name before? out).result = .ok joined := by
  cases before? with
  | none => exact ⟨out, rfl⟩
  | some before => exact hs.combine name h [before, out]

theorem orTrue (hs : s.Complete) (out? : Option T) :
    ∃ out, (s.orTrue out?).result = .ok out := by
  cases out? with
  | none => exact hs.constant true
  | some out => exact ⟨out, rfl⟩

/-- A comparison takes two columns, or a column and a literal of any type. -/
theorem compare_required {slot : Slot}
    (h : slot ∈ [Slot.int, .float, .boolean, .string, .fields]) (op : Comparison) :
    (op.symbol, slot) ∈ Operation.required := by
  have hop : op ∈ Comparison.all := by cases op <;> decide
  exact List.mem_append_left _ (List.mem_flatMap.2 ⟨op, hop, List.mem_map.2 ⟨slot, h, rfl⟩⟩)

theorem compareColumn (hs : s.Complete) (op : Comparison) (column : String) {v : Value}
    (hwild : v.isWildcard = false) (hident : v.ident? = none) :
    ∃ out, (Operand.compareColumn s op column v).result = .ok out := by
  cases v with
  | wildcard => cases hwild
  | ident name => cases hident
  | int _ | float _ | boolean _ | string _ => exact hs.call (compare_required (by simp) op) _

theorem test (hs : s.Complete) (o : Operand T) : ∃ out, (Operand.test s o).result = .ok out := by
  cases o with
  | column c => exact hs.call (compare_required (by simp) .eq) _
  | literal v => exact hs.constant _

theorem compare (hs : s.Complete) (op : Comparison) {x y : Comparable} {o o' : Operand T}
    (hx : Operand.Resolves s x o) (hy : Operand.Resolves s y o') :
    ∃ out, (Operand.compare s op o o').result = .ok out := by
  cases hx with
  | column _ =>
      cases hy with
      | column _ => exact hs.call (compare_required (by simp) op) _
      | literal hwild hident => exact hs.compareColumn op _ hwild hident
  | literal hwild hident =>
      cases hy with
      | column _ => exact hs.compareColumn op _ hwild hident
      | literal _ _ => simpa only [Operand.compare, Run.result_report_bind] using hs.constant _

end Complete

end Schema

/-! ## What is compilable compiles -/

mutual

theorem Term.compile_of_compilable {s : Schema T} (hs : s.Complete) : (t : Term) →
    t.Compilable s → ∃ out, (t.compile s).result = .ok out
  | .mk negated body, h => by
      obtain ⟨inner, hinner⟩ := Simple.compile_of_compilable hs body h
      simp only [Term.compile, Run.result_bind_eq_ok]
      cases negated with
      | true =>
          obtain ⟨out, hout⟩ := hs.combine Operation.notName (by decide) [inner]
          exact ⟨out, inner, hinner, hout⟩
      | false => exact ⟨inner, inner, hinner, rfl⟩

theorem Simple.compile_of_compilable {s : Schema T} (hs : s.Complete) : (b : Simple) →
    b.Compilable s → ∃ out, (b.compile s).result = .ok out
  | .group f, h => by
      obtain ⟨out?, hf⟩ := Filter.compileAfter_of_compilable hs f h none
      obtain ⟨out, hout⟩ := hs.orTrue out?
      simp only [Simple.compile, Run.result_bind_eq_ok]
      exact ⟨out, out?, hf, hout⟩
  | .test x, h => by
      obtain ⟨o, hx⟩ := Comparable.compilable_iff_resolves.1 h
      obtain ⟨out, hout⟩ := hs.test o
      simp only [Simple.compile, Run.result_bind_eq_ok, Operand.resolve_eq_ok]
      exact ⟨out, o, hx, hout⟩
  | .compare x op (.group f), h => by
      obtain ⟨hx, rfl, c, r, hrel, hf⟩ := h
      obtain ⟨o, hx⟩ := Comparable.compilable_iff_resolves.1 hx
      rw [Comparable.relation?_of_resolves hx] at hrel
      cases hx with
      | literal _ _ => cases hrel
      | column hc =>
          obtain ⟨r, hr, hpair⟩ := Option.map_eq_some_iff.1 hrel
          cases hpair
          obtain ⟨hbehind, hembed⟩ := hs.related hc hr
          obtain ⟨out?, hf⟩ := Filter.compileAfter_of_compilable hbehind f hf none
          obtain ⟨inner, hinner⟩ := hbehind.orTrue out?
          obtain ⟨out, hout⟩ := hembed inner
          simp only [Simple.compile, Run.result_bind_eq_ok, Operand.resolve_eq_ok]
          refine ⟨out, _, .column hc, ?_⟩
          simp only [hrel, Run.result_report_bind, Run.result_bind_eq_ok, Relation.enter_eq_ok]
          exact ⟨out?, hf, inner, hinner, hout⟩
  | .compare x op (.comparable y), h => by
      obtain ⟨hx, hrel, hy⟩ := h
      obtain ⟨o, hx⟩ := Comparable.compilable_iff_resolves.1 hx
      obtain ⟨o', hy⟩ := Comparable.compilable_iff_resolves.1 hy
      rw [Comparable.relation?_of_resolves hx] at hrel
      obtain ⟨out, hout⟩ := hs.compare op hx hy
      simp only [Simple.compile, Run.result_bind_eq_ok, Operand.resolve_eq_ok]
      refine ⟨out, o, hx, ?_⟩
      simp only [hrel, Option.isSome_none, Bool.false_eq_true, if_false, Run.result_bind_eq_ok,
        Operand.resolve_eq_ok]
      exact ⟨o', hy, hout⟩

theorem Clause.compileAfter_of_compilable {s : Schema T} (hs : s.Complete) : (c : List Term) →
    Clause.Compilable s c → (before? : Option T) →
    ∃ out?, (Clause.compileAfter s before? c).result = .ok out?
  | [], _, before? => ⟨before?, rfl⟩
  | term :: r, h, before? => by
      obtain ⟨out, hterm⟩ := Term.compile_of_compilable hs term h.1
      obtain ⟨joined, hjoined⟩ := hs.join Operation.orName (by decide) before? out
      obtain ⟨out?, hr⟩ := Clause.compileAfter_of_compilable hs r h.2 (some joined)
      simp only [Clause.compileAfter, Run.result_bind_eq_ok]
      exact ⟨out?, out, hterm, joined, hjoined, hr⟩

theorem Filter.compileAfter_of_compilable {s : Schema T} (hs : s.Complete) :
    (f : List (List Term)) → Filter.Compilable s f → (before? : Option T) →
    ∃ out?, (Filter.compileAfter s before? f).result = .ok out?
  | [], _, before? => ⟨before?, rfl⟩
  | clause :: r, h, before? => by
      obtain ⟨clause?, hclause⟩ := Clause.compileAfter_of_compilable hs clause h.1 none
      simp only [Filter.compileAfter, Run.result_bind_eq_ok]
      cases clause? with
      | none =>
          obtain ⟨out?, hr⟩ := Filter.compileAfter_of_compilable hs r h.2 before?
          exact ⟨out?, none, hclause, hr⟩
      | some out =>
          obtain ⟨joined, hjoined⟩ := hs.join Operation.andName (by decide) before? out
          obtain ⟨out?, hr⟩ := Filter.compileAfter_of_compilable hs r h.2 (some joined)
          exact ⟨out?, some out, hclause, Run.result_bind_eq_ok.2 ⟨joined, hjoined, hr⟩⟩

end

/-! ## Operands at any depth -/

mutual

/-- All operands in the term, also those among the arguments of calls. -/
def Term.operands : Term → List Comparable
  | .mk _ body => Simple.operands body

def Simple.operands : Simple → List Comparable
  | .group f => Filter.operands f
  | .test x => Comparable.operands x
  | .compare x _ arg => Comparable.operands x ++ Arg.operands arg

def Comparable.operands : Comparable → List Comparable
  | .plain v path => [.plain v path]
  | .call v path args => .call v path args :: Args.operands args

def Arg.operands : Arg → List Comparable
  | .group f => Filter.operands f
  | .comparable x => Comparable.operands x

def Args.operands : List Arg → List Comparable
  | [] => []
  | arg :: r => Arg.operands arg ++ Args.operands r

def Clause.operands : List Term → List Comparable
  | [] => []
  | term :: r => Term.operands term ++ Clause.operands r

def Filter.operands : List (List Term) → List Comparable
  | [] => []
  | clause :: r => Clause.operands clause ++ Filter.operands r

end

/-- Neither a call, nor a path, nor the wildcard. -/
def Comparable.Basic (x : Comparable) : Prop := ∃ v, x = .plain v [] ∧ v ≠ .wildcard

theorem Comparable.Compilable.basic {s : Schema T} {x : Comparable} (h : x.Compilable s) :
    ∀ y ∈ x.operands, y.Basic := by
  cases x with
  | call v path args => exact h.elim
  | plain v path =>
      obtain ⟨rfl, hwild, -⟩ := h
      intro y hy
      rw [operands, List.mem_singleton] at hy
      exact ⟨v, hy, hwild⟩

mutual

theorem Term.Compilable.basic {s : Schema T} : (t : Term) → t.Compilable s →
    ∀ x ∈ t.operands, x.Basic
  | .mk _ body, h => Simple.Compilable.basic body h

theorem Simple.Compilable.basic {s : Schema T} : (b : Simple) → b.Compilable s →
    ∀ x ∈ b.operands, x.Basic
  | .group f, h => Filter.Compilable.basic f h
  | .test _, h => Comparable.Compilable.basic h
  | .compare x op (.group f), h => by
      obtain ⟨hx, -, c, r, -, hf⟩ := h
      simp only [Simple.operands, Arg.operands, List.forall_mem_append]
      exact ⟨hx.basic, Filter.Compilable.basic f hf⟩
  | .compare x op (.comparable y), h => by
      simp only [Simple.operands, Arg.operands, List.forall_mem_append]
      exact ⟨h.1.basic, h.2.2.basic⟩

theorem Clause.Compilable.basic {s : Schema T} : (c : List Term) → Clause.Compilable s c →
    ∀ x ∈ Clause.operands c, x.Basic
  | [], _ => by simp [Clause.operands]
  | term :: r, h => by
      simp only [Clause.operands, List.forall_mem_append]
      exact ⟨Term.Compilable.basic term h.1, Clause.Compilable.basic r h.2⟩

theorem Filter.Compilable.basic {s : Schema T} : (f : List (List Term)) → Filter.Compilable s f →
    ∀ x ∈ Filter.operands f, x.Basic
  | [], _ => by simp [Filter.operands]
  | clause :: r, h => by
      simp only [Filter.operands, List.forall_mem_append]
      exact ⟨Clause.Compilable.basic clause h.1, Filter.Compilable.basic r h.2⟩

end

/-! ## The condition -/

namespace Schema

theorem compilable_of_compileFilter {s : Schema T} {f : Filter} {out : T}
    (h : (s.compileFilter f).result = .ok out) : Filter.Compilable s f := by
  obtain ⟨out?, hf, -⟩ := Run.result_bind_eq_ok.1 h
  exact Filter.compilable_of_compileAfter f hf

theorem Complete.compileFilter {s : Schema T} (hs : s.Complete) {f : Filter}
    (h : Filter.Compilable s f) : ∃ out, (s.compileFilter f).result = .ok out := by
  obtain ⟨out?, hf⟩ := Filter.compileAfter_of_compilable hs f h none
  obtain ⟨out, hout⟩ := hs.orTrue out?
  exact ⟨out, Run.result_bind_eq_ok.2 ⟨out?, hf, hout⟩⟩

/-- What compiles is compilable, whatever the operations do; what is compilable compiles where all
operations are there and none fails; and a wildcard, a path or a call never compiles. -/
theorem compiles_iff_compilable :
    (∀ (s : Schema T) f out, (s.compileFilter f).result = .ok out → Filter.Compilable s f) ∧
    (∀ (s : Schema T) f, s.Complete → Filter.Compilable s f →
      ∃ out, (s.compileFilter f).result = .ok out) ∧
    ∀ f, ∀ x ∈ Filter.operands f, ¬ x.Basic →
      ∀ s : Schema T, ∃ e, (s.compileFilter f).result = .error e := by
  refine ⟨fun s f out h => compilable_of_compileFilter h, fun s f hs h => hs.compileFilter h, ?_⟩
  intro f x hx hbasic s
  cases hrun : (s.compileFilter f).result with
  | error e => exact ⟨e, rfl⟩
  | ok out =>
      have hcompilable := compilable_of_compileFilter hrun
      exact absurd (Filter.Compilable.basic f hcompilable x hx) hbasic

end Schema

/-! ## A schema that accepts everything it can -/

namespace Mute

/-- Takes any operands and makes nothing of them. -/
def operation (name : String) : Operation Unit := ⟨name, fun _ => some fun _ => .ok ()⟩

def names : List String :=
  Comparison.all.map Comparison.symbol ++
    [Operation.trueName, Operation.falseName, Operation.andName, Operation.orName,
      Operation.notName]

def operations : List (Operation Unit) := names.map operation

theorem complete_of_columns {columns : List (Column Unit)}
    (h : ∀ c ∈ columns, ∀ r, c.relation? = some r →
      r.schema.Complete ∧ ∀ inner, ∃ out, r.embed inner = .ok out) :
    Schema.Complete ⟨columns, operations⟩ := by
  have hnames : ∀ entry ∈ Operation.required, entry.1 ∈ names := by decide
  refine .mk ?_ ?_ (fun c hc r hr => (h c hc r hr).1) (fun c hc r hr => (h c hc r hr).2)
  · intro entry hentry
    exact ⟨operation entry.1, List.mem_map_of_mem (hnames entry hentry), rfl, rfl⟩
  · intro op hop slot f hf operands
    obtain ⟨name, -, rfl⟩ := List.mem_map.1 hop
    cases hf
    exact ⟨(), rfl⟩

def animals : Schema Unit := ⟨[(Column.named "name").filterable], operations⟩

/-- Persons, and the animals they keep. -/
def persons : Schema Unit where
  columns := [(Column.named "age").filterable,
    (Column.named "pets").filterable.relatedBy animals fun _ => .ok ()]
  operations

theorem animals_complete : animals.Complete := by
  apply complete_of_columns
  intro c hc r hr
  rw [List.mem_singleton.1 hc] at hr
  cases hr

theorem persons_complete : persons.Complete := by
  apply complete_of_columns
  intro c hc r hr
  simp only [List.mem_cons, List.not_mem_nil, or_false] at hc
  rcases hc with rfl | rfl
  · cases hr
  · cases hr
    exact ⟨animals_complete, fun inner => ⟨(), rfl⟩⟩

end Mute

theorem Schema.compiles_iff_compilable_persons :
    let age : Comparable := .plain (.ident "age") []
    let name : Comparable := .plain (.ident "name") []
    let pets : Comparable := .plain (.ident "pets") []
    let f : Filter :=
      [[.mk true (.compare pets .has (.group [[.mk false (.compare name .eq
        (.comparable (.plain (.string "rex") [])))]]))], [.mk false (.test age)]]
    let g : Filter := [[.mk false (.compare age .eq (.comparable (.plain .wildcard [])))]]
    (Mute.persons.Complete ∧ Filter.Compilable Mute.persons f ∧
      ∃ out, (Mute.persons.compileFilter f).result = .ok out) ∧
    (.plain .wildcard [] ∈ Filter.operands g ∧ ¬ Comparable.Basic (.plain .wildcard []) ∧
      ∃ e, (Mute.persons.compileFilter g).result = .error e) := by
  intro age name pets f g
  obtain ⟨hcompilable, hcompiles, hrefused⟩ := compiles_iff_compilable (T := Unit)
  have hf : Filter.Compilable Mute.persons f := hcompilable Mute.persons f () rfl
  have hg : Comparable.plain .wildcard [] ∈ Filter.operands g := by
    simp [g, age, Filter.operands, Clause.operands, Term.operands, Simple.operands,
      Comparable.operands, Arg.operands]
  have hwild : ¬ Comparable.Basic (.plain .wildcard []) := by
    rintro ⟨v, hv, hne⟩
    cases hv
    exact hne rfl
  exact ⟨⟨Mute.persons_complete, hf, hcompiles _ _ Mute.persons_complete hf⟩, hg, hwild,
    hrefused g _ hg hwild _⟩

end Sift
