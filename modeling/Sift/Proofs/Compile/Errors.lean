import Sift.Proofs.Compile.Lookup
import Sift.Proofs.Compile.Steps
import Sift.Proofs.Compile.Compilable

/-!
# What errors tell

The error of a filter that does not compile is true of some part of it: the part has what the error
names, and the schema that governs the place of the part does not have what that would need. The
schema is the one behind the relational columns that the part stands under.
-/

namespace Sift

variable {T : Type}

/-! ## The parts of a filter -/

/-- Under `s` the part `b'` of `b` stands at a place that `s'` governs. -/
inductive Simple.Reaches : Schema T → Simple → Schema T → Simple → Prop
  | self {s : Schema T} {b : Simple} : Reaches s b s b
  | group {s s' : Schema T} {f : Filter} {clause : Clause} {negated : Bool} {body b : Simple} :
      clause ∈ f → .mk negated body ∈ clause → Reaches s body s' b → Reaches s (.group f) s' b
  | related {s s' : Schema T} {x : Comparable} {c : Column T} {r : Relation T} {f : Filter}
      {b : Simple} : x.relation? s = some (c, r) → Reaches r.schema (.group f) s' b →
      Reaches s (.compare x .has (.group f)) s' b

namespace Simple

/-- The operands that do not stand within another part. -/
def sides : Simple → List Comparable
  | group _ => []
  | test x | compare x _ (.group _) => [x]
  | compare x _ (.comparable y) => [x, y]

/-- What the part has that no schema accepts. -/
inductive Shows (s : Schema T) : Simple → Unsupported → Prop
  | wildcard {b : Simple} : .plain .wildcard [] ∈ b.sides → Shows s b .wildcard
  | path {b : Simple} {v : Value} {field : Field} {path : List Field} :
      .plain v (field :: path) ∈ b.sides → Shows s b .path
  | call {b : Simple} {v : Value} {path : List Field} {args : List Arg} :
      .call v path args ∈ b.sides → Shows s b .call
  /-- A filter in parentheses elsewhere than under `:` on a relational column. -/
  | group {x : Comparable} {op : Comparison} {f : Filter} :
      ¬ (op = .has ∧ (x.relation? s).isSome) → Shows s (.compare x op (.group f)) .relation
  /-- A relational column with something else on its right. -/
  | column {x y : Comparable} {op : Comparison} :
      (x.relation? s).isSome → Shows s (.compare x op (.comparable y)) .relation

end Simple

/-- The operands that a column and the literal are. -/
def Value.slot? : Value → Option Slot
  | int _ => some .int
  | float _ => some .float
  | boolean _ => some .boolean
  | string _ => some .string
  | wildcard | ident _ => none

open Operand (Resolves)

/-- For the part the operation of the name has to take operands of the shape. -/
inductive Simple.Requires (s : Schema T) : Simple → String → Slot → Prop
  | not {f : Filter} {clause : Clause} {body : Simple} : clause ∈ f → .mk true body ∈ clause →
      Requires s (.group f) Operation.notName .combine
  | or {f : Filter} {clause : Clause} : clause ∈ f → 2 ≤ clause.length →
      Requires s (.group f) Operation.orName .combine
  | and {f : Filter} : 2 ≤ (f.countP fun clause => !clause.isEmpty) →
      Requires s (.group f) Operation.andName .combine
  /-- A filter of nothing is true. -/
  | nothing {f : Filter} : (∀ clause ∈ f, clause = []) →
      Requires s (.group f) Operation.trueName .constant
  | column {x : Comparable} {c : Column T} : Resolves s x (.column c) →
      Requires s (.test x) Comparison.eq.symbol .boolean
  | literal {x : Comparable} {v : Value} : Resolves s x (.literal v) →
      Requires s (.test x) (if !v.isZero then Operation.trueName else Operation.falseName) .constant
  | columns {x y : Comparable} {c c' : Column T} {op : Comparison} : Resolves s x (.column c) →
      Resolves s y (.column c') → Requires s (.compare x op (.comparable y)) op.symbol .fields
  /-- On either side of a column a literal is compared by its type. -/
  | mixed {x y : Comparable} {c : Column T} {v : Value} {op : Comparison} {slot : Slot} :
      Resolves s x (.column c) ∧ Resolves s y (.literal v) ∨
        Resolves s x (.literal v) ∧ Resolves s y (.column c) →
      v.slot? = some slot → Requires s (.compare x op (.comparable y)) op.symbol slot
  | literals {x y : Comparable} {v w : Value} {op : Comparison} : Resolves s x (.literal v) →
      Resolves s y (.literal w) → Requires s (.compare x op (.comparable y))
        (if v.compare op w then Operation.trueName else Operation.falseName) .constant

/-! ## Errors that are true -/

namespace CompileError

/-- What the error says is so at the part `b`, whose place `s` governs. -/
def TrueAt (s : Schema T) (b : Simple) : CompileError → Prop
  | unknownField name => .plain (.ident name) [] ∈ b.sides ∧
    ∀ c ∈ s.columns, c.name = name → c.capabilities.includes Capability.filterable = false
  | unknownOperation name => ∃ slot, b.Requires s name slot ∧ ¬ s.Registers name slot
  | unsupported what => b.Shows s what
  | typeMismatch .. => False
  | callback name reason =>
    (∃ slot f operands, b.Requires s name slot ∧ s.callback? name slot = some f ∧
      f operands = .error reason) ∨
    ∃ x f c r inner, b = .compare x .has (.group f) ∧ x.relation? s = some (c, r) ∧
      c.name = name ∧ r.embed inner = .error reason

/-- What the error says is so at some part of `b`. -/
def TrueWithin (s : Schema T) (b : Simple) (e : CompileError) : Prop :=
  ∃ s' b', Simple.Reaches s b s' b' ∧ e.TrueAt s' b'

variable {s : Schema T} {b : Simple} {e : CompileError}

theorem TrueAt.within (h : e.TrueAt s b) : e.TrueWithin s b := ⟨s, b, .self, h⟩

theorem TrueWithin.group {f : Filter} {clause : Clause} {negated : Bool} (hclause : clause ∈ f)
    (hterm : .mk negated b ∈ clause) (h : e.TrueWithin s b) : e.TrueWithin s (.group f) := by
  obtain ⟨s', b', hreaches, htrue⟩ := h
  exact ⟨s', b', .group hclause hterm hreaches, htrue⟩

theorem TrueWithin.related {x : Comparable} {c : Column T} {r : Relation T} {f : Filter}
    (hx : x.relation? s = some (c, r)) (h : e.TrueWithin r.schema (.group f)) :
    e.TrueWithin s (.compare x .has (.group f)) := by
  obtain ⟨s', b', hreaches, htrue⟩ := h
  exact ⟨s', b', .related hx hreaches, htrue⟩

end CompileError

/-! ## Runs whose errors are such -/

/-- Where the run fails, its error is one of `P`. -/
structure Run.FailsOnly {α : Type} (P : CompileError → Prop) (x : Compiled α) : Prop where
  of_error : ∀ e, x.result = .error e → P e

namespace Run.FailsOnly

variable {α β : Type} {P Q : CompileError → Prop} {x : Compiled α} {f : α → Compiled β}

theorem pure (a : α) : FailsOnly P (Pure.pure a : Compiled α) where
  of_error _ h := by cases h

theorem report (ev : Event) : FailsOnly P (Run.report ev : Compiled Unit) where
  of_error _ h := by cases h

theorem fail {e : CompileError} (he : P e) : FailsOnly P (Run.fail e : Compiled α) where
  of_error e' h := by
    cases h
    exact he

theorem bind (hx : FailsOnly P x) (hf : ∀ a, x.result = .ok a → FailsOnly P (f a)) :
    FailsOnly P (x >>= f) where
  of_error e h := by
    rw [result_bind] at h
    cases hresult : x.result with
    | error e' =>
        rw [hresult] at h
        cases h
        exact hx.of_error e hresult
    | ok a =>
        rw [hresult] at h
        exact (hf a hresult).of_error e h

theorem mono (hx : FailsOnly P x) (h : ∀ e, P e → Q e) : FailsOnly Q x :=
  ⟨fun e he => h e (hx.of_error e he)⟩

theorem within {s : Schema T} {b : Simple} (hx : FailsOnly (·.TrueAt s b) x) :
    FailsOnly (CompileError.TrueWithin s b) x :=
  hx.mono fun _ he => he.within

end Run.FailsOnly

open Run (FailsOnly)

variable {s : Schema T} {b : Simple}

/-! ## Look-ups -/

namespace Schema

variable {name : String} {slot : Slot}

theorem not_registers (h : s.callback? name slot = none) : ¬ s.Registers name slot := by
  intro hregisters
  obtain ⟨op, f, hop, hf⟩ := hregisters.exists_operation
  simp [callback?, hop, hf] at h

theorem call_failsOnly (h : b.Requires s name slot) (operands : slot.Args T) :
    FailsOnly (·.TrueAt s b) (s.call name slot operands) := by
  rw [call_eq]
  cases hf : s.callback? name slot with
  | none => exact .fail ⟨slot, h, not_registers hf⟩
  | some f =>
      dsimp only
      cases hout : f operands with
      | ok out => exact .pure out
      | error reason => exact .fail (.inl ⟨slot, f, operands, h, hf, hout⟩)

end Schema

namespace Operand

variable {x : Comparable} {o : Operand T}

theorem resolve_failsOnly (hx : x ∈ b.sides) : FailsOnly (·.TrueAt s b) (resolve s x) := by
  cases x with
  | call v path args => exact .fail (.call hx)
  | plain v path =>
      cases path with
      | cons f path => exact .fail (.path hx)
      | nil =>
          cases v with
          | wildcard => exact .fail (.wildcard hx)
          | ident name =>
              rw [resolve]
              split
              · exact .pure _
              · next hc =>
                  apply (FailsOnly.report _).bind
                  intro _ _
                  refine .fail ⟨hx, fun c hmem hname => ?_⟩
                  simpa [hname] using List.find?_eq_none.1 hc c hmem
          | int _ | float _ | string _ | boolean _ => exact .pure _

theorem test_failsOnly (hx : Resolves s x o) : FailsOnly (·.TrueAt s (.test x)) (test s o) := by
  cases o with
  | column c => exact Schema.call_failsOnly (.column hx) _
  | literal v => exact Schema.call_failsOnly (.literal hx) _

theorem compareColumn_failsOnly {P : CompileError → Prop} {op : Comparison} {column : String}
    {v : Value} (hv : Resolves s x (.literal v))
    (h : ∀ slot, v.slot? = some slot → ∀ operands, FailsOnly P (s.call op.symbol slot operands)) :
    FailsOnly P (compareColumn s op column v) := by
  cases hv with
  | literal hwild hident =>
      cases v with
      | wildcard => cases hwild
      | ident name => cases hident
      | int _ | float _ | string _ | boolean _ => exact h _ rfl _

theorem compare_failsOnly {y : Comparable} {o' : Operand T} {op : Comparison}
    (hx : Resolves s x o) (hy : Resolves s y o') :
    FailsOnly (·.TrueAt s (.compare x op (.comparable y))) (compare s op o o') := by
  cases o with
  | column c =>
      cases o' with
      | column c' => exact Schema.call_failsOnly (.columns hx hy) _
      | literal w =>
          exact compareColumn_failsOnly hy fun _ hslot =>
            Schema.call_failsOnly (.mixed (.inl ⟨hx, hy⟩) hslot)
  | literal v =>
      cases o' with
      | column c' =>
          exact compareColumn_failsOnly hx fun _ hslot =>
            Schema.call_failsOnly (.mixed (.inr ⟨hx, hy⟩) hslot)
      | literal w =>
          apply (FailsOnly.report _).bind
          intro _ _
          exact Schema.call_failsOnly (.literals hx hy) _

end Operand

theorem Relation.enter_failsOnly {x : Comparable} {c : Column T} {r : Relation T} {f : Filter}
    (hx : x.relation? s = some (c, r)) (inner : T) :
    FailsOnly (·.TrueAt s (.compare x .has (.group f))) (r.enter c.name inner) := by
  rw [enter_eq]
  cases hout : r.embed inner with
  | ok out => exact .pure out
  | error reason => exact .fail (.inr ⟨x, f, c, r, inner, rfl, hx, rfl, hout⟩)

/-! ## Terms in a row -/

variable {P : CompileError → Prop}

/-- Terms are joined where there is more than one, those before them included. -/
theorem Clause.compileAfter_failsOnly {c : Clause} {before? : Option T}
    (hterm : ∀ t ∈ c, FailsOnly P (t.compile s))
    (hor : 2 ≤ before?.toList.length + c.length →
      ∀ outs, FailsOnly P (s.combine Operation.orName outs)) :
    FailsOnly P (Clause.compileAfter s before? c) := by
  induction c generalizing before? with
  | nil => exact .pure _
  | cons t r ih =>
      obtain ⟨ht, hr⟩ := List.forall_mem_cons.1 hterm
      rw [List.length_cons] at hor
      rw [compileAfter]
      apply ht.bind
      intro out _
      apply FailsOnly.bind
      · cases before? with
        | none => exact .pure _
        | some before =>
            rw [Option.toList_some, List.length_singleton] at hor
            exact hor (by omega) _
      · intro joined _
        refine ih hr fun hlength => hor ?_
        rw [Option.toList_some, List.length_singleton] at hlength
        omega

theorem Filter.compileAfter_failsOnly {f : Filter} {before? : Option T}
    (hclause : ∀ clause ∈ f, FailsOnly P (Clause.compileAfter s none clause))
    (hand : 2 ≤ before?.toList.length + (f.countP fun clause => !clause.isEmpty) →
      ∀ outs, FailsOnly P (s.combine Operation.andName outs)) :
    FailsOnly P (Filter.compileAfter s before? f) := by
  induction f generalizing before? with
  | nil => exact .pure _
  | cons clause r ih =>
      obtain ⟨hfirst, hr⟩ := List.forall_mem_cons.1 hclause
      rw [compileAfter]
      apply hfirst.bind
      intro out? hout
      cases out? with
      | none =>
          obtain rfl := (Clause.ne_none_of_compileAfter clause hout).2
          exact ih hr hand
      | some out =>
          obtain ⟨t, rest, rfl⟩ : ∃ t rest, clause = t :: rest := by
            cases clause with
            | nil => cases hout
            | cons t rest => exact ⟨t, rest, rfl⟩
          rw [List.countP_cons_of_pos rfl] at hand
          apply FailsOnly.bind
          · cases before? with
            | none => exact .pure _
            | some before =>
                rw [Option.toList_some, List.length_singleton] at hand
                exact hand (by omega) _
          · intro joined _
            refine ih hr fun hlength => hand ?_
            rw [Option.toList_some, List.length_singleton] at hlength
            omega

/-- A filter that gives no output has nothing in it. -/
theorem Filter.eq_nil_of_compileAfter {f : Filter} {before? : Option T}
    (h : (Filter.compileAfter s before? f).result = .ok none) :
    before? = none ∧ ∀ clause ∈ f, clause = [] := by
  induction f generalizing before? with
  | nil => exact ⟨by cases h; rfl, by simp⟩
  | cons clause r ih =>
      rw [compileAfter, Run.result_bind_eq_ok] at h
      obtain ⟨out?, hout, h⟩ := h
      cases out? with
      | none =>
          obtain ⟨hbefore, hr⟩ := ih h
          exact ⟨hbefore,
            List.forall_mem_cons.2 ⟨(Clause.ne_none_of_compileAfter clause hout).2, hr⟩⟩
      | some out =>
          obtain ⟨joined, -, h⟩ := Run.result_bind_eq_ok.1 h
          cases (ih h).1

/-! ## Filters -/

open CompileError (TrueWithin)

theorem Simple.group_failsOnly {f : Filter}
    (h : ∀ clause ∈ f, ∀ negated body, .mk negated body ∈ clause →
      FailsOnly (TrueWithin s body) (body.compile s)) :
    FailsOnly (TrueWithin s (.group f)) ((Simple.group f).compile s) := by
  have hcall : ∀ {name slot}, (Simple.group f).Requires s name slot → ∀ operands,
      FailsOnly (TrueWithin s (.group f)) (s.call name slot operands) := fun hrequires operands =>
    (Schema.call_failsOnly hrequires operands).within
  rw [Simple.compile]
  apply FailsOnly.bind
  · apply Filter.compileAfter_failsOnly
    · intro clause hclause
      apply Clause.compileAfter_failsOnly
      · intro t hterm
        obtain ⟨negated, body⟩ := t
        rw [Term.compile]
        apply ((h clause hclause negated body hterm).mono fun _ he => he.group hclause hterm).bind
        intro out _
        cases negated with
        | true => exact hcall (.not hclause hterm) _
        | false => exact .pure _
      · intro hlength
        exact hcall (.or hclause (by simpa using hlength))
    · intro hcount
      exact hcall (.and (by simpa using hcount))
  · intro out? hout
    cases out? with
    | none => exact hcall (.nothing (Filter.eq_nil_of_compileAfter hout).2) _
    | some out => exact .pure _

mutual

theorem Simple.compile_failsOnly (s : Schema T) :
    (b : Simple) → FailsOnly (TrueWithin s b) (b.compile s)
  | .group f => Simple.group_failsOnly (Filter.bodies_failsOnly s f)
  | .test x => by
      rw [Simple.compile]
      apply FailsOnly.within
      apply (Operand.resolve_failsOnly (by simp [Simple.sides])).bind
      intro o ho
      exact Operand.test_failsOnly (Operand.resolves_of_resolve ho)
  | .compare x op (.group f) => by
      rw [Simple.compile]
      apply (Operand.resolve_failsOnly (by simp [Simple.sides])).within.bind
      intro left hleft
      have hrel := Comparable.relation?_of_resolves (Operand.resolves_of_resolve hleft)
      cases op with
      | has =>
          cases hleft : left.relation? with
          | none => exact .fail (CompileError.TrueAt.within (.group (by simp [hrel, hleft])))
          | some related =>
              obtain ⟨c, r⟩ := related
              rw [hleft] at hrel
              apply (FailsOnly.report _).bind
              intro _ _
              rw [← bind_assoc, ← Simple.compile]
              have hinner := Simple.group_failsOnly (Filter.bodies_failsOnly r.schema f)
              apply (hinner.mono fun _ he => he.related hrel).bind
              intro inner _
              exact (Relation.enter_failsOnly hrel inner).within
      | _ => exact .fail (CompileError.TrueAt.within (.group (by simp)))
  | .compare x op (.comparable y) => by
      rw [Simple.compile]
      apply FailsOnly.within
      apply (Operand.resolve_failsOnly (by simp [Simple.sides])).bind
      intro left hleft
      have hx := Operand.resolves_of_resolve hleft
      split
      · next hrel =>
          rw [← Comparable.relation?_of_resolves hx] at hrel
          exact .fail (.column hrel)
      · apply (Operand.resolve_failsOnly (by simp [Simple.sides])).bind
        intro right hright
        exact Operand.compare_failsOnly hx (Operand.resolves_of_resolve hright)

theorem Clause.bodies_failsOnly (s : Schema T) : (c : List Term) → ∀ negated body,
    .mk negated body ∈ c → FailsOnly (TrueWithin s body) (body.compile s)
  | .mk _ first :: r, negated, body, h => by
      rcases List.mem_cons.1 h with h | h
      · rw [(Term.mk.inj h).2]
        exact Simple.compile_failsOnly s first
      · exact Clause.bodies_failsOnly s r negated body h

theorem Filter.bodies_failsOnly (s : Schema T) : (f : List (List Term)) → ∀ clause ∈ f,
    ∀ negated body, .mk negated body ∈ clause → FailsOnly (TrueWithin s body) (body.compile s)
  | c :: r, clause, hclause => by
      rcases List.mem_cons.1 hclause with h | hclause
      · rw [h]
        exact Clause.bodies_failsOnly s c
      · exact Filter.bodies_failsOnly s r clause hclause

end

/-! ## Operations without a callback -/

/-- The call of an operation where `missing` is done if it has no callback for the operands. -/
def Operation.callOr (missing : Compiled T) (op : Operation T) (slot : Slot)
    (operands : slot.Args T) : Compiled T :=
  match op.callback? slot with
  | none => missing
  | some f => .ofAnswer op.name (f operands)

theorem Operation.call_eq_callOr {name : String} {slot : Slot} {op : Operation T}
    (h : (s.require name slot).result = .ok op) (missing : Compiled T) (operands : slot.Args T) :
    op.call slot operands = op.callOr missing slot operands := by
  rw [Schema.require] at h
  split at h
  · next hop =>
      cases h
      obtain ⟨f, hf, -⟩ := Schema.exists_callback_of_operation? hop
      simp only [call, callOr, hf]
      cases f operands <;> rfl
  · cases h

theorem Schema.call_eq_callOr (name : String) (slot : Slot) (operands : slot.Args T)
    (missing : Compiled T) :
    s.call name slot operands =
      s.require name slot >>= fun op => op.callOr missing slot operands :=
  Run.bind_congr_of_ok fun _ hop => Operation.call_eq_callOr hop missing operands

theorem Key.compile_eq_callOr {k : Key} {name : String} {c : Column T} (hk : k.path = [name])
    (hc : s.column? name Capability.sortable = some c) (missing : Compiled T) :
    k.compile s = (do
      let op ← s.require k.direction .field
      Run.report (.orderingKey c.name k.direction)
      op.callOr missing .field c.name) := by
  simp only [compile, hk, hc]
  refine Run.bind_congr_of_ok fun op hop => ?_
  rw [Operation.call_eq_callOr hop missing]

namespace Mute

def age : Column Unit := (Column.named "age").sortable

/-- Persons, by their age. -/
def ranking : Schema Unit := ⟨[age], [operation Operation.ascendingName]⟩

end Mute

namespace Schema

/-- The error of a filter that does not compile is true of some part of it, and is none of types
that do not match. Wherever an operation is called, for a filter or for the key of an order, it has
a callback for the operands, so that nothing depends on what is done where one is missing. -/
theorem errors_of_compileFilter (s : Schema T) :
    (∀ f e, (s.compileFilter f).result = .error e → e.TrueWithin s (.group f)) ∧
    (∀ f name typeName, (s.compileFilter f).result ≠ .error (.typeMismatch name typeName)) ∧
    (∀ name slot operands missing, s.call name slot operands =
      s.require name slot >>= fun op => op.callOr missing slot operands) ∧
    ∀ (k : Key) name c missing, k.path = [name] → s.column? name Capability.sortable = some c →
      k.compile s = (do
        let op ← s.require k.direction .field
        Run.report (.orderingKey c.name k.direction)
        op.callOr missing .field c.name) := by
  have htrue : ∀ f e, (s.compileFilter f).result = .error e → e.TrueWithin s (.group f) :=
    fun f => (Simple.compile_failsOnly s (.group f)).of_error
  refine ⟨htrue, fun f name typeName h => ?_, call_eq_callOr,
    fun _ _ _ missing hk hc => Key.compile_eq_callOr hk hc missing⟩
  obtain ⟨_, _, -, hfalse⟩ := htrue f _ h
  exact hfalse

theorem errors_of_compileFilter_pets_age :
    let f : Filter := [[.mk false (.compare (.plain (.ident "pets") []) .has
      (.group [[.mk false (.test (.plain (.ident "age") []))]]))]]
    let k : Key := ⟨["age"], false⟩
    ((Mute.persons.compileFilter f).result = .error (.unknownField "age") ∧
      CompileError.TrueWithin Mute.persons (.group f) (.unknownField "age")) ∧
    (k.path = ["age"] ∧ Mute.ranking.column? "age" Capability.sortable = some Mute.age) ∧
    ∀ missing, k.compile Mute.ranking = (do
      let op ← Mute.ranking.require "_asc" .field
      Run.report (.orderingKey "age" "_asc")
      op.callOr missing .field "age") := by
  intro f k
  have hf : (Mute.persons.compileFilter f).result = .error (.unknownField "age") := rfl
  have hc : Mute.ranking.column? "age" Capability.sortable = some Mute.age := rfl
  exact ⟨⟨hf, (errors_of_compileFilter Mute.persons).1 f _ hf⟩, ⟨rfl, hc⟩,
    fun missing => (errors_of_compileFilter Mute.ranking).2.2.2 k "age" Mute.age missing rfl hc⟩

end Schema

end Sift
