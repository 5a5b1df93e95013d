import Sift.Proofs.Compile.Success

/-!
# Compiling step by step

A filter is laid out as a list of steps: its parts from left to right, and each operation after what
it is applied to. Carried out one after the other on a stack of outputs, the steps report, fail and
give what compiling does.
-/

namespace Sift

variable {T : Type}

/-! ## Steps -/

inductive Step (T : Type) where
  /-- Fails unless the operand is a filterable column or a literal. -/
  | resolve (s : Schema T) (x : Comparable)
  | report (e : Event)
  | fail (e : CompileError)
  /-- Puts the output of an operation on the stack. -/
  | call (s : Schema T) (name : String) (slot : Slot) (operands : slot.Args T)
  /-- Replaces the last `count` outputs by what an operation makes of them. -/
  | combine (s : Schema T) (name : String) (count : Nat)
  /-- Replaces the last output by what it is in the outer schema. -/
  | enter (r : Relation T) (column : String)

/-- Why steps cannot be carried out. -/
inductive Halt where
  | underflow
  | failed (e : CompileError)

namespace Step

/-- The last output stands first on the stack. -/
def run : Step T → List T → Run Halt (List T)
  | resolve s x, outs => do
    let _ ← (Operand.resolve s x).mapError .failed
    return outs
  | report e, outs => do
    Run.report e
    return outs
  | fail e, _ => .fail (.failed e)
  | call s name slot operands, outs => do
    return (← (s.call name slot operands).mapError .failed) :: outs
  | combine s name count, outs => do
    if outs.length < count then .fail .underflow
    else return (← (s.combine name (outs.take count).reverse).mapError .failed) :: outs.drop count
  | enter r column, inner :: outs => do
    return (← (r.enter column inner).mapError .failed) :: outs
  | enter .., [] => .fail .underflow

def runAll : List (Step T) → List T → Run Halt (List T)
  | [], outs => return outs
  | step :: r, outs => do runAll r (← step.run outs)

def constant (s : Schema T) (value : Bool) : Step T :=
  call s (if value then Operation.trueName else Operation.falseName) .constant ()

end Step

/-! ## The steps of a filter -/

namespace Operand

/-- What the operand stands for, if the schema has anything for it. -/
def of? (s : Schema T) (x : Comparable) : Option (Operand T) := (resolve s x).result.toOption

def testSteps (s : Schema T) : Operand T → List (Step T)
  | column c => [.call s Comparison.eq.symbol .boolean (c.name, true)]
  | literal v => [.constant s !v.isZero]

/-- The type of the literal decides which operands the operation has to take. -/
def compareColumnSteps (s : Schema T) (op : Comparison) (column : String) : Value → List (Step T)
  | .int n => [.call s op.symbol .int (column, n)]
  | .float x => [.call s op.symbol .float (column, x)]
  | .boolean b => [.call s op.symbol .boolean (column, b)]
  | .string t => [.call s op.symbol .string (column, t)]
  | v => [.fail (.typeMismatch op.symbol v.typeName)]

def compareSteps (s : Schema T) (op : Comparison) : Operand T → Operand T → List (Step T)
  | column left, column right => [.call s op.symbol .fields (left.name, right.name)]
  | column c, literal v | literal v, column c => compareColumnSteps s op c.name v
  | literal left, literal right =>
    let result := left.compare op right
    [.report (.foldedComparison left op right result), .constant s result]

end Operand

mutual

def Term.steps (s : Schema T) : Term → List (Step T)
  | .mk negated body =>
    Simple.steps s body ++ if negated then [.combine s Operation.notName 1] else []

/-- Where an operand stands for nothing, the steps that follow are never carried out. -/
def Simple.steps (s : Schema T) : Simple → List (Step T)
  | .group f => Filter.stepsAfter s false f
  | .test x =>
    .resolve s x ::
      match Operand.of? s x with
      | some o => o.testSteps s
      | none => []
  | .compare x op (.group f) =>
    .resolve s x ::
      match op, (Operand.of? s x).bind Operand.relation? with
      | .has, some (c, r) =>
        .report (.relatedFilter c.name) ::
          (Filter.stepsAfter r.schema false f ++ [.enter r c.name])
      | _, _ => [.fail (.unsupported .relation)]
  | .compare x op (.comparable y) =>
    .resolve s x ::
      match (Operand.of? s x).bind Operand.relation? with
      | some _ => [.fail (.unsupported .relation)]
      | none =>
        .resolve s y ::
          match Operand.of? s x, Operand.of? s y with
          | some left, some right => Operand.compareSteps s op left right
          | _, _ => []

/-- Each term is joined at once to those `before` it. -/
def Clause.stepsAfter (s : Schema T) (before : Bool) : List Term → List (Step T)
  | [] => []
  | term :: r =>
    Term.steps s term ++ ((if before then [.combine s Operation.orName 2] else []) ++
      Clause.stepsAfter s true r)

/-- Clauses without terms are passed over, and where there is nothing else the filter is true. -/
def Filter.stepsAfter (s : Schema T) (before : Bool) : List (List Term) → List (Step T)
  | [] => if before then [] else [.constant s true]
  | [] :: r => Filter.stepsAfter s before r
  | (term :: clause) :: r =>
    Clause.stepsAfter s false (term :: clause) ++
      ((if before then [.combine s Operation.andName 2] else []) ++ Filter.stepsAfter s true r)

end

def Filter.steps (s : Schema T) (f : Filter) : List (Step T) := Filter.stepsAfter s false f

/-! ## Carrying steps out -/

namespace Run

variable {ε ε' α β : Type} {g : ε → ε'}

@[simp] theorem except_mapError_ok (a : α) : (Except.ok a : Except ε α).mapError g = .ok a := rfl

@[simp] theorem except_mapError_error (e : ε) :
    (Except.error e : Except ε α).mapError g = .error (g e) := rfl

@[simp] theorem mapError_pure (a : α) : (pure a : Run ε α).mapError g = pure a := rfl

@[simp] theorem mapError_fail (e : ε) : (fail e : Run ε α).mapError g = fail (g e) := rfl

@[simp] theorem map_fail (e : ε) (f : α → β) : f <$> (fail e : Run ε α) = fail e := rfl

@[simp] theorem mapError_report (e : Event) : (report e : Run ε Unit).mapError g = report e := rfl

@[simp] theorem mapError_bind (x : Run ε α) (f : α → Run ε β) :
    (x >>= f).mapError g = x.mapError g >>= fun a => (f a).mapError g := by
  simp only [bind_eq, mapError]
  cases x.result <;> rfl

theorem mapError_eq_ok {x : Run ε α} {a : α} :
    (x.mapError g).result = .ok a ↔ x.result = .ok a := by
  rw [mapError]
  cases x.result <;> simp

/-- What follows a run need only be the same for its result. -/
theorem bind_congr_of_ok {x : Run ε α} {f f' : α → Run ε β}
    (h : ∀ a, x.result = .ok a → f a = f' a) : x >>= f = x >>= f' := by
  simp only [bind_eq]
  cases hx : x.result with
  | error e => rfl
  | ok a => simp only [h a hx]

end Run

namespace Step

variable {s : Schema T} {outs : List T}

@[simp] theorem runAll_nil : runAll [] outs = pure outs := rfl

@[simp] theorem runAll_cons (step : Step T) (r : List (Step T)) :
    runAll (step :: r) outs = step.run outs >>= runAll r := rfl

theorem runAll_append (steps steps' : List (Step T)) :
    runAll (steps ++ steps') outs = runAll steps outs >>= runAll steps' := by
  induction steps generalizing outs with
  | nil => simp
  | cons step r ih =>
      simp only [List.cons_append, runAll_cons, bind_assoc]
      exact bind_congr fun outs' => ih

/-- Steps fail as the first of them does that cannot be carried out. -/
theorem runAll_eq_error_iff {steps : List (Step T)} {h : Halt} :
    (runAll steps outs).result = .error h ↔
      ∃ done step todo outs', steps = done ++ step :: todo ∧
        (runAll done outs).result = .ok outs' ∧ (step.run outs').result = .error h := by
  constructor
  · intro herror
    induction steps generalizing outs with
    | nil => cases herror
    | cons step r ih =>
        cases hstep : (step.run outs).result with
        | error h' =>
            rw [runAll_cons, Run.bind_eq, hstep] at herror
            exact ⟨[], step, r, outs, rfl, rfl, hstep.trans herror⟩
        | ok outs₁ =>
            rw [runAll_cons, Run.bind_eq, hstep] at herror
            obtain ⟨done, step', todo, outs', rfl, hdone, hfail⟩ := ih herror
            refine ⟨step :: done, step', todo, outs', rfl, ?_, hfail⟩
            exact Run.result_bind_eq_ok.2 ⟨outs₁, hstep, hdone⟩
  · rintro ⟨done, step, todo, outs', rfl, hdone, hfail⟩
    rw [runAll_append, Run.bind_eq, hdone]
    simp only [runAll_cons, Run.bind_eq, hfail]

theorem run_report (e : Event) : (report e).run outs = Run.report e >>= fun _ => pure outs := rfl

theorem run_combine_one (name : String) (out : T) :
    (combine s name 1).run (out :: outs) =
      (s.combine name [out]).mapError .failed >>= fun out => pure (out :: outs) := by
  simp [run]

theorem run_combine_two (name : String) (before out : T) :
    (combine s name 2).run (out :: before :: outs) =
      (s.combine name [before, out]).mapError .failed >>= fun out => pure (out :: outs) := by
  have hlength : ¬ outs.length + 1 + 1 < 2 := by omega
  simp [run, hlength]

theorem run_constant (value : Bool) :
    (constant s value).run outs =
      (s.constant value).mapError .failed >>= fun out => pure (out :: outs) := rfl

/-- Resolving an operand leaves the stack as it is. -/
theorem runAll_resolve (x : Comparable) (r : List (Step T)) :
    runAll (resolve s x :: r) outs =
      (Operand.resolve s x).mapError .failed >>= fun _ => runAll r outs := by
  simp [run]

end Step

namespace Operand

variable {s : Schema T} {x : Comparable} {o : Operand T} {outs : List T}

theorem of?_of_resolve (h : (resolve s x).result = .ok o) : of? s x = some o := by
  rw [of?, h]
  rfl

theorem runAll_testSteps (o : Operand T) :
    Step.runAll (o.testSteps s) outs =
      (o.test s).mapError .failed >>= fun out => pure (out :: outs) := by
  cases o with
  | column c => simp [testSteps, test, Step.run]
  | literal v => simp [testSteps, test, Step.run_constant]

theorem runAll_compareColumnSteps (op : Comparison) (column : String) (v : Value) :
    Step.runAll (compareColumnSteps s op column v) outs =
      (compareColumn s op column v).mapError .failed >>= fun out => pure (out :: outs) := by
  cases v <;> simp [compareColumnSteps, compareColumn, Step.run]

theorem runAll_compareSteps (op : Comparison) (left right : Operand T) :
    Step.runAll (compareSteps s op left right) outs =
      (compare s op left right).mapError .failed >>= fun out => pure (out :: outs) := by
  cases left with
  | column c =>
      cases right with
      | column c' => simp [compareSteps, compare, Step.run]
      | literal v => exact runAll_compareColumnSteps op c.name v
  | literal v =>
      cases right with
      | column c => exact runAll_compareColumnSteps op c.name v
      | literal w => simp [compareSteps, compare, Step.run_constant, Step.run_report]

end Operand

/-! ## Steps and compiling -/

/-- A clause gives no output only if it has no terms and nothing stands before it. -/
theorem Clause.ne_none_of_compileAfter {s : Schema T} {before? : Option T} (c : List Term)
    (h : (Clause.compileAfter s before? c).result = .ok none) : before? = none ∧ c = [] := by
  induction c generalizing before? with
  | nil => exact ⟨by cases h; rfl, rfl⟩
  | cons term r ih =>
      simp only [compileAfter, Run.result_bind_eq_ok] at h
      obtain ⟨_, -, _, -, h⟩ := h
      cases (ih h).1

theorem Step.runAll_join {s : Schema T} {outs : List T} (name : String) (before? : Option T)
    (out : T) :
    runAll (if before?.isSome then [combine s name 2] else []) (out :: (before?.toList ++ outs)) =
      (s.join name before? out).mapError .failed >>= fun out => pure (out :: outs) := by
  cases before? with
  | none => simp [Schema.join]
  | some before => simp [Schema.join, run_combine_two]

mutual

theorem Term.runAll_steps (s : Schema T) : (t : Term) → (outs : List T) →
    Step.runAll (t.steps s) outs =
      (t.compile s).mapError .failed >>= fun out => pure (out :: outs)
  | .mk negated body, outs => by
      rw [Term.steps, Step.runAll_append, Simple.runAll_steps s body, Term.compile]
      cases negated with
      | true => simp [Step.run_combine_one]
      | false => simp

theorem Simple.runAll_steps (s : Schema T) : (b : Simple) → (outs : List T) →
    Step.runAll (b.steps s) outs =
      (b.compile s).mapError .failed >>= fun out => pure (out :: outs)
  | .group f, outs => by
      rw [Simple.steps, Simple.compile]
      exact Filter.runAll_stepsAfter s none f outs
  | .test x, outs => by
      rw [Simple.steps, Simple.compile, Step.runAll_resolve, Run.mapError_bind, bind_assoc]
      refine Run.bind_congr_of_ok fun o ho => ?_
      rw [Operand.of?_of_resolve (Run.mapError_eq_ok.1 ho)]
      exact Operand.runAll_testSteps o
  | .compare x op (.group f), outs => by
      unfold Simple.steps
      rw [Simple.compile, Step.runAll_resolve, Run.mapError_bind, bind_assoc]
      refine Run.bind_congr_of_ok fun o ho => ?_
      rw [Operand.of?_of_resolve (Run.mapError_eq_ok.1 ho), Option.bind_some]
      -- The steps and the compiler choose by the same relation, so both are split at once.
      generalize o.relation? = relation?
      split
      · next c r =>
          have ih := Filter.runAll_stepsAfter r.schema none f outs
          simp only [Option.isSome_none, Option.toList_none, List.nil_append] at ih
          simp [Step.run, Step.runAll_append, ih]
      · simp [Step.run]
  | .compare x op (.comparable y), outs => by
      rw [Simple.steps, Simple.compile, Step.runAll_resolve, Run.mapError_bind, bind_assoc]
      refine Run.bind_congr_of_ok fun o ho => ?_
      rw [Operand.of?_of_resolve (Run.mapError_eq_ok.1 ho), Option.bind_some]
      cases hrel : o.relation? with
      | some _ => simp [Step.run]
      | none =>
          simp only [Option.isSome_none, Bool.false_eq_true, if_false, Step.runAll_resolve,
            Run.mapError_bind, bind_assoc]
          refine Run.bind_congr_of_ok fun o' ho' => ?_
          rw [Operand.of?_of_resolve (Run.mapError_eq_ok.1 ho')]
          exact Operand.runAll_compareSteps op o o'

theorem Clause.runAll_stepsAfter (s : Schema T) : (before? : Option T) → (c : List Term) →
    (outs : List T) →
    Step.runAll (Clause.stepsAfter s before?.isSome c) (before?.toList ++ outs) =
      (Clause.compileAfter s before? c).mapError .failed >>= fun out? => pure (out?.toList ++ outs)
  | before?, [], outs => by
      simp [Clause.stepsAfter, Clause.compileAfter]
  | before?, term :: r, outs => by
      rw [Clause.stepsAfter, Clause.compileAfter, Step.runAll_append, Term.runAll_steps s term]
      simp only [bind_assoc, pure_bind, Run.mapError_bind, Step.runAll_append, Step.runAll_join]
      refine bind_congr fun out => bind_congr fun joined => ?_
      exact Clause.runAll_stepsAfter s (some joined) r outs

theorem Filter.runAll_stepsAfter (s : Schema T) : (before? : Option T) → (f : List (List Term)) →
    (outs : List T) →
    Step.runAll (Filter.stepsAfter s before?.isSome f) (before?.toList ++ outs) =
      (Filter.compileAfter s before? f >>= s.orTrue).mapError .failed >>=
        fun out => pure (out :: outs)
  | before?, [], outs => by
      cases before? with
      | none => simp [Filter.stepsAfter, Filter.compileAfter, Schema.orTrue, Step.run_constant]
      | some before => simp [Filter.stepsAfter, Filter.compileAfter, Schema.orTrue]
  | before?, [] :: r, outs => by
      have ih := Filter.runAll_stepsAfter s before? r outs
      rw [Filter.stepsAfter, ih]
      simp [Filter.compileAfter, Clause.compileAfter]
  | before?, (term :: clause) :: r, outs => by
      have ihc := Clause.runAll_stepsAfter s none (term :: clause) (before?.toList ++ outs)
      simp only [Option.isSome_none, Option.toList_none, List.nil_append] at ihc
      rw [Filter.stepsAfter, Filter.compileAfter, Step.runAll_append, ihc]
      simp only [bind_assoc, pure_bind, Run.mapError_bind]
      refine Run.bind_congr_of_ok fun out? hout => ?_
      cases out? with
      | none => cases (Clause.ne_none_of_compileAfter _ (Run.mapError_eq_ok.1 hout)).2
      | some out =>
          simp only [Option.toList_some, List.singleton_append, Step.runAll_append,
            Step.runAll_join, bind_assoc, pure_bind, Run.mapError_bind]
          refine bind_congr fun joined => ?_
          simpa using Filter.runAll_stepsAfter s (some joined) r outs

end

namespace Schema

/-- The steps of a filter report what compiling it does, and leave its output on the stack. -/
theorem runAll_steps (s : Schema T) (f : Filter) :
    Step.runAll (f.steps s) [] =
      (s.compileFilter f).mapError .failed >>= fun out => pure [out] :=
  Filter.runAll_stepsAfter s none f []

/-- Compiling gives the one output that the steps of the filter leave, or the error of the first of
them that fails. -/
theorem compileFilter_iff_steps (s : Schema T) (f : Filter) :
    (∀ out, (s.compileFilter f).result = .ok out ↔
      (Step.runAll (f.steps s) []).result = .ok [out]) ∧
    ∀ e, (s.compileFilter f).result = .error e ↔
      ∃ done step todo outs, f.steps s = done ++ step :: todo ∧
        (Step.runAll done []).result = .ok outs ∧ (step.run outs).result = .error (.failed e) := by
  simp only [← Step.runAll_eq_error_iff, runAll_steps, Run.bind_eq, Run.mapError]
  cases (s.compileFilter f).result with
  | error e => simp
  | ok out => simp [pure, Run.pure]

end Schema

end Sift
