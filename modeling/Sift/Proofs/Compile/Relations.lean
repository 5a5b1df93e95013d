import Sift.Proofs.Compile.Compilable
import Sift.Proofs.Compile.Steps

/-!
# Where relational columns may stand

A relational column stands for a relation on the left of `:` before parentheses. On the left of any
other comparison it is refused. On its own, or on the right of a comparison, it is taken like any
other column.
-/

namespace Sift

variable {T : Type}

/-! ## The uses of operands -/

/-- How a filter uses an operand. -/
inductive Place where
  | alone
  | left (op : Comparison) (right : Arg)
  | right

/-- The place of a relation: on the left of `:` before parentheses. -/
def Place.OfRelation : Place → Prop
  | left .has (.group _) => True
  | _ => False

/-- Under the schema `s` the operand `x` is used at the place `p`, which the schema `s'` governs. -/
inductive Simple.Uses : Schema T → Simple → Schema T → Place → Comparable → Prop
  | group {s s' : Schema T} {p : Place} {x : Comparable} {f : Filter} {clause : Clause}
      {negated : Bool} {body : Simple} : clause ∈ f → .mk negated body ∈ clause →
      Simple.Uses s body s' p x → Simple.Uses s (.group f) s' p x
  | alone {s : Schema T} {x : Comparable} : Simple.Uses s (.test x) s .alone x
  | left {s : Schema T} {x : Comparable} {op : Comparison} {a : Arg} :
      Simple.Uses s (.compare x op a) s (.left op a) x
  | right {s : Schema T} {x y : Comparable} {op : Comparison} :
      Simple.Uses s (.compare x op (.comparable y)) s .right y
  | related {s s' : Schema T} {p : Place} {x y : Comparable} {c : Column T} {r : Relation T}
      {f : Filter} {clause : Clause} {negated : Bool} {body : Simple} :
      y.relation? s = some (c, r) → clause ∈ f → .mk negated body ∈ clause →
      Simple.Uses r.schema body s' p x → Simple.Uses s (.compare y .has (.group f)) s' p x

def Filter.Uses (s : Schema T) (f : Filter) (s' : Schema T) (p : Place) (x : Comparable) : Prop :=
  Simple.Uses s (.group f) s' p x

/-! ## Steps within steps -/

variable {s s' : Schema T} {p : Place} {x : Comparable}

theorem Clause.infix_stepsAfter {c : Clause} {t : Term} (h : t ∈ c) (before : Bool) :
    t.steps s <:+: Clause.stepsAfter s before c := by
  induction c generalizing before with
  | nil => cases h
  | cons term r ih =>
      rw [stepsAfter]
      rcases List.mem_cons.1 h with rfl | h
      · exact (List.prefix_append _ _).isInfix
      · exact ((ih h true).trans (List.suffix_append _ _).isInfix).trans
          (List.suffix_append _ _).isInfix

theorem Filter.infix_stepsAfter {f : Filter} {clause : Clause} {t : Term} (h : clause ∈ f)
    (ht : t ∈ clause) (before : Bool) : t.steps s <:+: Filter.stepsAfter s before f := by
  induction f generalizing before with
  | nil => cases h
  | cons c r ih =>
      cases c with
      | nil =>
          rw [stepsAfter]
          rcases List.mem_cons.1 h with rfl | h
          · cases ht
          · exact ih h before
      | cons term rest =>
          rw [stepsAfter]
          rcases List.mem_cons.1 h with rfl | h
          · exact (Clause.infix_stepsAfter ht false).trans (List.prefix_append _ _).isInfix
          · exact ((ih h true).trans (List.suffix_append _ _).isInfix).trans
              (List.suffix_append _ _).isInfix

theorem Term.infix_steps (negated : Bool) (body : Simple) :
    body.steps s <:+: (Term.mk negated body).steps s := by
  rw [steps]
  exact (List.prefix_append _ _).isInfix

theorem Comparable.relation?_eq (s : Schema T) (x : Comparable) :
    (Operand.of? s x).bind Operand.relation? = x.relation? s := by
  cases hx : (Operand.resolve s x).result with
  | ok o =>
      rw [Operand.of?_of_resolve hx, relation?_of_resolves (Operand.resolve_eq_ok.1 hx)]
      rfl
  | error e =>
      -- What names a relational column resolves to it.
      have hnone : Operand.of? s x = none := by rw [Operand.of?, hx]; rfl
      rw [hnone, Option.bind_none]
      unfold relation?
      split
      · next name =>
          cases hc : s.column? name Capability.filterable with
          | none => rfl
          | some c => simp [Operand.resolve, hc, pure, Run.pure] at hx
      · rfl

theorem Simple.steps_of_relation {c : Column T} {r : Relation T} {f : Filter}
    (h : x.relation? s = some (c, r)) :
    (Simple.compare x .has (.group f)).steps s =
      [.resolve s x, .report (.relatedFilter c.name)] ++
        (Filter.stepsAfter r.schema false f ++ [.enter r c.name]) := by
  unfold steps
  rw [Comparable.relation?_eq, h]
  rfl

theorem Simple.steps_of_ne_has {op : Comparison} {f : Filter} (h : op ≠ .has) :
    (Simple.compare x op (.group f)).steps s =
      [.resolve s x, .fail (.unsupported .relation)] := by
  rw [steps]
  intro c r hop
  exact absurd hop h

/-- Before a relational column on the wrong left side nothing is done but to find it. -/
theorem Simple.Uses.infix_steps {b : Simple} {op : Comparison} {a : Arg}
    (h : Simple.Uses s b s' (.left op a) x) (hrel : (x.relation? s').isSome)
    (hplace : ¬ (Place.left op a).OfRelation) :
    [.resolve s' x, .fail (.unsupported .relation)] <:+: b.steps s := by
  generalize hp : Place.left op a = p at h hplace
  induction h with
  | group hclause hterm _ ih =>
      rw [steps]
      exact ((ih hrel hp hplace).trans (Term.infix_steps _ _)).trans
        (Filter.infix_stepsAfter hclause hterm false)
  | alone => cases hp
  | @left s x op' a' =>
      cases hp
      obtain ⟨⟨c, r⟩, hrel⟩ := Option.isSome_iff_exists.1 hrel
      cases a with
      | group f =>
          have hop : op ≠ .has := by
            rintro rfl
            exact hplace trivial
          exact ⟨[], [], (steps_of_ne_has hop).symm⟩
      | comparable y =>
          have hsteps : (Simple.compare x op (.comparable y)).steps s =
              [.resolve s x, .fail (.unsupported .relation)] := by
            rw [steps, Comparable.relation?_eq, hrel]
          exact ⟨[], [], hsteps.symm⟩
  | right => cases hp
  | @related s s' p x y c r f clause negated body hy hclause hterm _ ih =>
      have hinner := ((ih hrel hp hplace).trans (Term.infix_steps _ _)).trans
        (Filter.infix_stepsAfter hclause hterm false)
      rw [steps_of_relation hy]
      exact (hinner.trans (List.prefix_append _ _).isInfix).trans (List.suffix_append _ _).isInfix

/-! ## What becomes of them -/

theorem Operand.resolve_of_relation? {c : Column T} {r : Relation T}
    (h : x.relation? s = some (c, r)) : ∃ o, (resolve s x).result = .ok o := by
  cases hx : (resolve s x).result with
  | ok o => exact ⟨o, rfl⟩
  | error e =>
      have hnone : of? s x = none := by rw [of?, hx]; rfl
      rw [← Comparable.relation?_eq, hnone] at h
      cases h

namespace Schema

/-- Compiling `f` fails with `e`, or with an error of the steps before. -/
def FailsAfter (s : Schema T) (f : Filter) (before : List (Step T)) (e : CompileError) : Prop :=
  (s.compileFilter f).result = .error e ∨
    ∃ e', (s.compileFilter f).result = .error e' ∧
      (Step.runAll before []).result = .error (.failed e')

theorem compileFilter_eq_error_of_steps {f : Filter} {h : Halt}
    (hsteps : (Step.runAll (f.steps s) []).result = .error h) :
    ∃ e, h = .failed e ∧ (s.compileFilter f).result = .error e := by
  rw [runAll_steps, Run.bind_eq, Run.mapError] at hsteps
  cases hrun : (s.compileFilter f).result with
  | ok out =>
      rw [hrun] at hsteps
      cases hsteps
  | error e =>
      rw [hrun] at hsteps
      cases hsteps
      exact ⟨e, rfl, rfl⟩

/-- Steps that come to a refusal end there, or before. -/
theorem failsAfter_of_steps {f : Filter} {before after : List (Step T)} {e : CompileError}
    {o : Operand T} (hsteps : f.steps s = before ++ .resolve s' x :: .fail e :: after)
    (hx : (Operand.resolve s' x).result = .ok o) : s.FailsAfter f before e := by
  have hrun : (Step.runAll (f.steps s) []).result =
      (Step.runAll before [] >>= Step.runAll (.resolve s' x :: .fail e :: after)).result := by
    rw [hsteps, Step.runAll_append]
  cases hbefore : (Step.runAll before []).result with
  | ok outs =>
      have hfail : (Step.runAll (.resolve s' x :: .fail e :: after) outs).result =
          .error (.failed e) := by
        rw [Step.runAll_resolve, Run.bind_eq, Run.mapError, hx]
        rfl
      rw [Run.bind_eq, hbefore] at hrun
      obtain ⟨e', he, herror⟩ := compileFilter_eq_error_of_steps (hrun.trans hfail)
      cases he
      exact .inl herror
  | error h =>
      rw [Run.bind_eq, hbefore] at hrun
      obtain ⟨e', rfl, herror⟩ := compileFilter_eq_error_of_steps hrun
      exact .inr ⟨e', herror, hbefore⟩

/-- On the wrong left side of a comparison a relational column is refused. -/
theorem failsAfter_of_uses {f : Filter} {op : Comparison} {a : Arg}
    (huse : f.Uses s s' (.left op a) x) (hrel : (x.relation? s').isSome)
    (hplace : ¬ (Place.left op a).OfRelation) :
    ∃ before after,
      f.steps s = before ++ .resolve s' x :: .fail (.unsupported .relation) :: after ∧
        s.FailsAfter f before (.unsupported .relation) := by
  obtain ⟨before, after, hsteps⟩ := huse.infix_steps hrel hplace
  have hsteps : f.steps s =
      before ++ .resolve s' x :: .fail (.unsupported .relation) :: after := by
    simpa [Simple.steps, Filter.steps] using hsteps.symm
  obtain ⟨⟨c, r⟩, hrel⟩ := Option.isSome_iff_exists.1 hrel
  obtain ⟨o, ho⟩ := Operand.resolve_of_relation? hrel
  exact ⟨before, after, hsteps, failsAfter_of_steps hsteps ho⟩

/-- On the left of a comparison a relational column stands for its relation, or it is refused unless
an earlier step fails. So what is accepted has relational columns only in the place of relations
exactly when none of them stands on its own or on the right of a comparison. -/
theorem relations_of_compileFilter (s : Schema T) (f : Filter) :
    (∀ s' op a x, f.Uses s s' (.left op a) x → (x.relation? s').isSome →
      ¬ (Place.left op a).OfRelation → ∃ before after,
        f.steps s = before ++ .resolve s' x :: .fail (.unsupported .relation) :: after ∧
          s.FailsAfter f before (.unsupported .relation)) ∧
    ∀ out, (s.compileFilter f).result = .ok out →
      ((∀ s' p x, f.Uses s s' p x → (x.relation? s').isSome → p.OfRelation) ↔
        ∀ s' p x, f.Uses s s' p x → (x.relation? s').isSome → p ≠ .alone ∧ p ≠ .right) := by
  constructor
  · intro s' op a x huse hrel hplace
    exact failsAfter_of_uses huse hrel hplace
  · intro out hout
    constructor
    · intro h s' p x huse hrel
      have hplace := h s' p x huse hrel
      cases p with
      | alone => exact hplace.elim
      | right => exact hplace.elim
      | left op a => simp
    · intro h s' p x huse hrel
      cases p with
      | alone => exact absurd rfl (h s' _ x huse hrel).1
      | right => exact absurd rfl (h s' _ x huse hrel).2
      | left op a =>
          apply Classical.byContradiction
          intro hplace
          obtain ⟨before, after, -, hfails⟩ := failsAfter_of_uses huse hrel hplace
          rcases hfails with herror | ⟨e, herror, -⟩
          · cases hout.symm.trans herror
          · cases hout.symm.trans herror

theorem relations_of_compileFilter_persons :
    let pets : Comparable := .plain (.ident "pets") []
    let one : Arg := .comparable (.plain (.int 1) [])
    let f : Filter := [[.mk false (.compare pets .eq one)]]
    let g : Filter :=
      [[.mk false (.compare pets .has (.group [[.mk false (.test (.plain (.ident "name") []))]]))]]
    (f.Uses Mute.persons Mute.persons (.left .eq one) pets ∧
      (pets.relation? Mute.persons).isSome ∧ ¬ (Place.left .eq one).OfRelation ∧
      ∃ before, Mute.persons.FailsAfter f before (.unsupported .relation)) ∧
    (Mute.persons.compileFilter g).result = .ok () ∧
      ((∀ s' p x, g.Uses Mute.persons s' p x → (x.relation? s').isSome → p.OfRelation) ↔
        ∀ s' p x, g.Uses Mute.persons s' p x → (x.relation? s').isSome →
          p ≠ .alone ∧ p ≠ .right) := by
  intro pets one f g
  have huse : f.Uses Mute.persons Mute.persons (.left .eq one) pets :=
    .group List.mem_cons_self List.mem_cons_self .left
  obtain ⟨before, after, -, hfails⟩ :=
    (relations_of_compileFilter Mute.persons f).1 _ _ _ _ huse rfl id
  exact ⟨⟨huse, rfl, id, before, hfails⟩, rfl,
    (relations_of_compileFilter Mute.persons g).2 () rfl⟩

/-- Standing alone or on the right of a comparison, a relational column is accepted. -/
theorem compileFilter_pets :
    let pets : Comparable := .plain (.ident "pets") []
    let alone : Filter := [[.mk false (.test pets)]]
    let right : Filter := [[.mk false (.compare (.plain (.int 1) []) .eq (.comparable pets))]]
    let both : Filter :=
      [[.mk false (.compare (.plain (.ident "age") []) .eq (.comparable pets))]]
    (pets.relation? Mute.persons).isSome ∧
      (alone.Uses Mute.persons Mute.persons .alone pets ∧
        (Mute.persons.compileFilter alone).result = .ok ()) ∧
      (right.Uses Mute.persons Mute.persons .right pets ∧
        (Mute.persons.compileFilter right).result = .ok ()) ∧
      (both.Uses Mute.persons Mute.persons .right pets ∧
        (Mute.persons.compileFilter both).result = .ok ()) := by
  intro pets alone right both
  refine ⟨rfl, ⟨?_, rfl⟩, ⟨?_, rfl⟩, ?_, rfl⟩
  · exact .group List.mem_cons_self List.mem_cons_self .alone
  · exact .group List.mem_cons_self List.mem_cons_self .right
  · exact .group List.mem_cons_self List.mem_cons_self .right

end Schema

end Sift
