import Sift.Proofs.Compile.Compilable
import Sift.Proofs.Compile.Lookup

/-!
# What compiling reports

Which events a filter gives can be read off its tree: one for each comparison of two literals, and
one for each filter on related rows, before those of that filter. A run that gives an output reports
all of them, and one that fails the first of them. An order reports its keys one by one.
-/

namespace Sift

variable {T : Type}

/-! ## Events read off a tree -/

/-- The literal that the operand is. -/
def Comparable.literal? : Comparable → Option Value
  | .plain v [] => if v.isWildcard || v.ident?.isSome then none else some v
  | _ => none

/-- Two literals are compared at once, and this is reported. -/
def Comparison.events (op : Comparison) : Option Value → Option Value → List Event
  | some v, some w => [.foldedComparison v op w (v.compare op w)]
  | _, _ => []

mutual

def Term.events (s : Schema T) : Term → List Event
  | .mk _ body => Simple.events s body

def Simple.events (s : Schema T) : Simple → List Event
  | .group f => Filter.events s f
  | .test x => Comparable.events s x
  | .compare x op (.group f) =>
    Comparable.events s x ++
      match op, x.relation? s with
      | .has, some (c, r) => .relatedFilter c.name :: Filter.events r.schema f
      | _, _ => Filter.events s f
  | .compare x op (.comparable y) =>
    Comparable.events s x ++ (Comparable.events s y ++ op.events x.literal? y.literal?)

/-- Of operands only calls have something within them. -/
def Comparable.events (s : Schema T) : Comparable → List Event
  | .plain .. => []
  | .call _ _ args => Args.events s args

def Arg.events (s : Schema T) : Arg → List Event
  | .group f => Filter.events s f
  | .comparable x => Comparable.events s x

def Args.events (s : Schema T) : List Arg → List Event
  | [] => []
  | arg :: r => Arg.events s arg ++ Args.events s r

def Clause.events (s : Schema T) : List Term → List Event
  | [] => []
  | term :: r => Term.events s term ++ Clause.events s r

def Filter.events (s : Schema T) : List (List Term) → List Event
  | [] => []
  | clause :: r => Clause.events s clause ++ Filter.events s r

end

/-- What can be read off the tree of a filter. The schema alone tells which fields are unknown. -/
def Event.OfTree : Event → Prop
  | foldedComparison .. | relatedFilter _ => True
  | notFilterable _ | orderingKey .. => False

mutual

theorem Term.events_ofTree {s : Schema T} : (t : Term) → ∀ e ∈ t.events s, e.OfTree
  | .mk _ body => by
      rw [Term.events]
      exact Simple.events_ofTree body

theorem Simple.events_ofTree {s : Schema T} : (b : Simple) → ∀ e ∈ b.events s, e.OfTree
  | .group f => by
      rw [Simple.events]
      exact Filter.events_ofTree f
  | .test x => by
      rw [Simple.events]
      exact Comparable.events_ofTree x
  | .compare x op (.group f) => by
      unfold Simple.events
      refine List.forall_mem_append.2 ⟨Comparable.events_ofTree x, ?_⟩
      split
      · exact List.forall_mem_cons.2 ⟨trivial, Filter.events_ofTree f⟩
      · exact Filter.events_ofTree f
  | .compare x op (.comparable y) => by
      rw [Simple.events]
      refine List.forall_mem_append.2 ⟨Comparable.events_ofTree x,
        List.forall_mem_append.2 ⟨Comparable.events_ofTree y, ?_⟩⟩
      unfold Comparison.events
      split
      · exact List.forall_mem_singleton.2 trivial
      · simp

theorem Comparable.events_ofTree {s : Schema T} : (x : Comparable) → ∀ e ∈ x.events s, e.OfTree
  | .plain v path => by simp [Comparable.events]
  | .call v path args => by
      rw [Comparable.events]
      exact Args.events_ofTree args

theorem Arg.events_ofTree {s : Schema T} : (a : Arg) → ∀ e ∈ a.events s, e.OfTree
  | .group f => by
      rw [Arg.events]
      exact Filter.events_ofTree f
  | .comparable x => by
      rw [Arg.events]
      exact Comparable.events_ofTree x

theorem Args.events_ofTree {s : Schema T} : (args : List Arg) → ∀ e ∈ Args.events s args, e.OfTree
  | [] => by simp [Args.events]
  | arg :: r => by
      rw [Args.events]
      exact List.forall_mem_append.2 ⟨Arg.events_ofTree arg, Args.events_ofTree r⟩

theorem Clause.events_ofTree {s : Schema T} : (c : List Term) → ∀ e ∈ Clause.events s c, e.OfTree
  | [] => by simp [Clause.events]
  | term :: r => by
      rw [Clause.events]
      exact List.forall_mem_append.2 ⟨Term.events_ofTree term, Clause.events_ofTree r⟩

theorem Filter.events_ofTree {s : Schema T} :
    (f : List (List Term)) → ∀ e ∈ Filter.events s f, e.OfTree
  | [] => by simp [Filter.events]
  | clause :: r => by
      rw [Filter.events]
      exact List.forall_mem_append.2 ⟨Clause.events_ofTree clause, Filter.events_ofTree r⟩

end

/-! ## Runs that report them -/

/-- A run that gives a result reports `events`, and one that fails the first of them. An unknown
field is reported once more where it is found. -/
def Run.Reports {α : Type} (events : List Event) (x : Compiled α) : Prop :=
  match x.result with
  | .ok _ => x.events = events
  | .error (.unknownField name) =>
    ∃ done, done <+: events ∧ x.events = done ++ [.notFilterable name]
  | .error _ => x.events <+: events

namespace Run.Reports

variable {α β : Type} {events more : List Event} {x : Compiled α} {f : α → Compiled β}

theorem pure (a : α) : Reports [] (Pure.pure a : Compiled α) := rfl

theorem report (e : Event) : Reports [e] (Run.report e : Compiled Unit) := rfl

/-- All errors but that of an unknown field are found without an event. -/
theorem fail {e : CompileError} (he : ∀ name, e ≠ .unknownField name) :
    Reports events (.fail e : Compiled α) := by
  cases e with
  | unknownField name => exact absurd rfl (he name)
  | _ => exact List.nil_prefix

theorem bind (hx : Reports events x) (hf : ∀ a, x.result = .ok a → Reports more (f a)) :
    Reports (events ++ more) (x >>= f) := by
  obtain ⟨done, result⟩ := x
  cases result with
  | error e =>
      cases e with
      | unknownField name =>
          obtain ⟨before, hbefore, hdone⟩ := hx
          exact ⟨before, hbefore.trans (List.prefix_append events more), hdone⟩
      | _ => exact List.IsPrefix.trans hx (List.prefix_append events more)
  | ok a =>
      obtain rfl : done = events := hx
      have ha := hf a rfl
      change Reports (done ++ more) ⟨done ++ (f a).events, (f a).result⟩
      unfold Reports at ha ⊢
      cases hresult : (f a).result with
      | ok b =>
          rw [hresult] at ha
          exact congrArg (done ++ ·) ha
      | error e =>
          rw [hresult] at ha
          cases e with
          | unknownField name =>
              obtain ⟨before, hbefore, hevents⟩ := ha
              refine ⟨done ++ before, (List.prefix_append_right_inj done).2 hbefore, ?_⟩
              rw [List.append_assoc]
              exact congrArg (done ++ ·) hevents
          | _ => exact (List.prefix_append_right_inj done).2 ha

/-- What comes first gives no event where it succeeds. -/
theorem nil_bind (hx : Reports [] x) (hf : ∀ a, x.result = .ok a → Reports events (f a)) :
    Reports events (x >>= f) :=
  hx.bind hf

/-- What comes last gives no event. -/
theorem bind_nil (hx : Reports events x) (hf : ∀ a, Reports [] (f a)) :
    Reports events (x >>= f) := by
  simpa using hx.bind fun a _ => hf a

theorem ofAnswer (name : String) (answer : Except String T) :
    Reports [] (Run.ofAnswer name answer) := by
  cases answer with
  | ok out => exact .pure out
  | error reason => exact .fail (by simp)

theorem call (s : Schema T) (name : String) (slot : Slot) (operands : slot.Args T) :
    Reports [] (s.call name slot operands) := by
  rw [Schema.call_eq]
  split
  · exact .fail (by simp)
  · exact .ofAnswer _ _

theorem constant (s : Schema T) (value : Bool) : Reports [] (s.constant value) := .call _ _ _ _

theorem join (s : Schema T) (name : String) (before? : Option T) (out : T) :
    Reports [] (s.join name before? out) := by
  cases before? with
  | none => exact .pure out
  | some before => exact .call _ _ _ _

theorem orTrue (s : Schema T) (out? : Option T) : Reports [] (s.orTrue out?) := by
  cases out? with
  | none => exact .constant s true
  | some out => exact .pure out

theorem enter (r : Relation T) (column : String) (inner : T) :
    Reports [] (r.enter column inner) := by
  rw [Relation.enter_eq]
  exact .ofAnswer _ _

end Run.Reports

/-! ## Operands -/

open Run (Reports)

namespace Operand

variable {s : Schema T} {x : Comparable} {o : Operand T}

def literal? : Operand T → Option Value
  | column _ => none
  | literal v => some v

theorem literal?_of_resolves (h : Resolves s x o) : x.literal? = o.literal? := by
  cases h with
  | column _ => rfl
  | literal hwild hident => simp [Comparable.literal?, literal?, hwild, hident]

theorem resolve_reports (s : Schema T) (x : Comparable) :
    Reports (Comparable.events s x) (resolve s x) := by
  cases x with
  | call v path args => exact .fail (by simp)
  | plain v path =>
      cases path with
      | cons f path => exact .fail (by simp)
      | nil =>
          cases v with
          | wildcard => exact .fail (by simp)
          | ident name =>
              rw [resolve_ident]
              split
              · exact .pure _
              · exact ⟨[], List.nil_prefix, rfl⟩
          | int _ | float _ | string _ | boolean _ => exact .pure _

theorem test_reports (s : Schema T) (o : Operand T) : Reports [] (test s o) := by
  cases o with
  | column c => exact .call _ _ _ _
  | literal v => exact .constant _ _

theorem compareColumn_reports (s : Schema T) (op : Comparison) (column : String) (v : Value) :
    Reports [] (compareColumn s op column v) := by
  cases v with
  | int _ | float _ | boolean _ | string _ => exact .call _ _ _ _
  | wildcard | ident _ => exact .fail (by simp)

theorem compare_reports (s : Schema T) (op : Comparison) (left right : Operand T) :
    Reports (op.events left.literal? right.literal?) (compare s op left right) := by
  cases left with
  | column c =>
      cases right with
      | column c' => exact .call _ _ _ _
      | literal w => exact compareColumn_reports s op c.name w
  | literal v =>
      cases right with
      | column c' => exact compareColumn_reports s op c'.name v
      | literal w => exact (Reports.report _).bind_nil fun _ => .constant _ _

end Operand

/-! ## Filters -/

mutual

theorem Term.reports (s : Schema T) : (t : Term) → Reports (t.events s) (t.compile s)
  | .mk negated body => by
      rw [Term.events, Term.compile]
      apply (Simple.reports s body).bind_nil
      intro out
      cases negated with
      | true => exact .call _ _ _ _
      | false => exact .pure out

theorem Simple.reports (s : Schema T) : (b : Simple) → Reports (b.events s) (b.compile s)
  | .group f => by
      rw [Simple.events, Simple.compile]
      exact (Filter.reports s none f).bind_nil (.orTrue s)
  | .test x => by
      rw [Simple.events, Simple.compile]
      exact (Operand.resolve_reports s x).bind_nil (Operand.test_reports s)
  | .compare x op (.group f) => by
      unfold Simple.events
      rw [Simple.compile]
      apply (Operand.resolve_reports s x).bind
      intro left hleft
      rw [Comparable.relation?_of_resolves (Operand.resolves_of_resolve hleft)]
      cases op with
      | has =>
          cases left.relation? with
          | none => exact .fail (by simp)
          | some related =>
              apply (Reports.report (.relatedFilter related.1.name)).bind
              intro _ _
              apply (Filter.reports related.2.schema none f).bind_nil
              intro inner?
              apply (Reports.orTrue related.2.schema inner?).nil_bind
              intro inner _
              exact .enter related.2 related.1.name inner
      | _ => exact .fail (by simp)
  | .compare x op (.comparable y) => by
      rw [Simple.events, Simple.compile]
      apply (Operand.resolve_reports s x).bind
      intro left hleft
      split
      · exact .fail (by simp)
      · apply (Operand.resolve_reports s y).bind
        intro right hright
        rw [Operand.literal?_of_resolves (Operand.resolves_of_resolve hleft),
          Operand.literal?_of_resolves (Operand.resolves_of_resolve hright)]
        exact Operand.compare_reports s op left right

theorem Clause.reports (s : Schema T) (before? : Option T) :
    (c : List Term) → Reports (Clause.events s c) (Clause.compileAfter s before? c)
  | [] => .pure before?
  | term :: r => by
      rw [Clause.events, Clause.compileAfter]
      apply (Term.reports s term).bind
      intro out _
      apply (Reports.join s Operation.orName before? out).nil_bind
      intro joined _
      exact Clause.reports s (some joined) r

theorem Filter.reports (s : Schema T) (before? : Option T) :
    (f : List (List Term)) → Reports (Filter.events s f) (Filter.compileAfter s before? f)
  | [] => .pure before?
  | clause :: r => by
      rw [Filter.events, Filter.compileAfter]
      apply (Clause.reports s none clause).bind
      intro out? _
      cases out? with
      | none => exact Filter.reports s before? r
      | some out =>
          apply (Reports.join s Operation.andName before? out).nil_bind
          intro joined _
          exact Filter.reports s (some joined) r

end

theorem Schema.compileFilter_reports (s : Schema T) (f : Filter) :
    Reports (Filter.events s f) (s.compileFilter f) :=
  (Filter.reports s none f).bind_nil (.orTrue s)

/-! ## Orders -/

/-- What is reported of a key that has its column and its operation. -/
def Key.event (k : Key) : Event := .orderingKey (".".intercalate k.path) k.direction

/-- The callback of a key is called after the event, all else that may fail comes before it. -/
theorem Key.compile_reports (s : Schema T) (k : Key) :
    match (k.compile s).result with
    | .ok _ | .error (.callback _ _) => (k.compile s).events = [k.event]
    | .error _ => (k.compile s).events = [] := by
  obtain ⟨path, descending⟩ := k
  match path with
  | [] | _ :: _ :: _ => rfl
  | [name] =>
      rw [compile_eq]
      cases s.column? name Capability.sortable with
      | none => rfl
      | some c =>
          dsimp only
          cases s.callback? (Key.direction ⟨[name], descending⟩) .field with
          | none => rfl
          | some f => cases hout : f name <;> simp only [hout] <;> rfl

/-- Where all keys compile, all are reported. Otherwise those before the first that does not are
reported, and that one is too when it has its column and its operation and the callback fails. -/
def Order.Reported (s : Schema T) (o : Order) : Prop :=
  match (s.compileOrder o).result with
  | .ok _ => (s.compileOrder o).events = o.map Key.event
  | .error e => ∃ before k after, o = before ++ k :: after ∧
    (∃ outs, (s.compileOrder before).result = .ok outs) ∧ (k.compile s).result = .error e ∧
    (s.compileOrder o).events =
      match e with
      | .callback _ _ => (before ++ [k]).map Key.event
      | _ => before.map Key.event

namespace Schema

variable {s : Schema T} {k : Key} {r : Order}

theorem compileOrder_cons_of_ok {out : T} (h : (k.compile s).result = .ok out) :
    s.compileOrder (k :: r) =
      ⟨(k.compile s).events ++ (s.compileOrder r).events,
        (s.compileOrder r).result.map (out :: ·)⟩ := by
  rw [compileOrder, Run.bind_eq, h]
  dsimp only
  rw [Run.bind_eq]
  cases (s.compileOrder r).result with
  | ok outs => simp [pure, Run.pure, Except.map]
  | error e => rfl

theorem compileOrder_cons_of_error {e : CompileError} (h : (k.compile s).result = .error e) :
    s.compileOrder (k :: r) = ⟨(k.compile s).events, .error e⟩ := by
  rw [compileOrder, Run.bind_eq, h]

theorem compileOrder_reports (s : Schema T) (o : Order) : Order.Reported s o := by
  unfold Order.Reported
  induction o with
  | nil => rfl
  | cons k r ih =>
      have hk := k.compile_reports s
      cases hresult : (k.compile s).result with
      | error e =>
          rw [compileOrder_cons_of_error hresult]
          refine ⟨[], k, r, rfl, ⟨[], rfl⟩, hresult, ?_⟩
          rw [hresult] at hk
          cases e <;> exact hk
      | ok out =>
          rw [hresult] at hk
          rw [compileOrder_cons_of_ok hresult]
          cases hrest : (s.compileOrder r).result with
          | ok outs =>
              rw [hrest] at ih
              exact congrArg₂ (· ++ ·) hk ih
          | error e =>
              rw [hrest] at ih
              obtain ⟨before, k', after, rfl, ⟨outs, houts⟩, hk', hevents⟩ := ih
              refine ⟨k :: before, k', after, rfl, ⟨out :: outs, ?_⟩, hk', ?_⟩
              · rw [compileOrder_cons_of_ok hresult, houts]
                rfl
              · dsimp only
                rw [hk, hevents]
                cases e <;> rfl

/-- A filter that compiles reports the events of its tree from left to right, and one that does not
the first of them. An unknown field is reported where it is found, and nowhere else. The keys of an
order are reported one by one, up to the first that fails. -/
theorem events_of_compile (s : Schema T) :
    (∀ f : Filter, Reports (Filter.events s f) (s.compileFilter f) ∧
      ∀ name, .notFilterable name ∉ Filter.events s f) ∧
    ∀ o : Order, Order.Reported s o :=
  ⟨fun f => ⟨s.compileFilter_reports f, fun _ hmem => Filter.events_ofTree f _ hmem⟩,
    s.compileOrder_reports⟩

end Schema

end Sift
