import Sift.Compile.Filter

/-!
# Successful runs

What has to have happened where compiling gives a result.
-/

namespace Sift

namespace Run

variable {ε α β : Type}

theorem result_bind (x : Run ε α) (f : α → Run ε β) :
    (x >>= f).result = x.result >>= fun a => (f a).result := by
  rw [bind_eq]
  cases x.result <;> rfl

theorem result_bind_eq_ok {x : Run ε α} {f : α → Run ε β} {b : β} :
    (x >>= f).result = .ok b ↔ ∃ a, x.result = .ok a ∧ (f a).result = .ok b := by
  rw [bind_eq]
  cases hx : x.result with
  | error e => simp
  | ok a => simp

@[simp] theorem result_pure_eq_ok {a b : α} : (pure a : Run ε α).result = .ok b ↔ a = b := by
  simp [pure, Run.pure]

@[simp] theorem result_fail_ne_ok {e : ε} {a : α} : (fail e : Run ε α).result ≠ .ok a := by
  simp [fail]

@[simp] theorem result_report_bind (e : Event) (f : Unit → Run ε α) :
    (report e >>= f).result = (f ()).result := rfl

end Run

variable {T : Type} {s : Schema T}

namespace Schema

theorem mem_of_column? {name : String} {required : Flags} {c : Column T}
    (h : s.column? name required = some c) :
    c ∈ s.columns ∧ c.name = name ∧ c.capabilities.includes required = true := by
  have hc := List.find?_some h
  simp only [Bool.and_eq_true, decide_eq_true_eq] at hc
  exact ⟨List.mem_of_find?_eq_some h, hc⟩

theorem mem_of_operation? {name : String} {required : Flags} {op : Operation T}
    (h : s.operation? name required = some op) :
    op ∈ s.operations ∧ op.name = name ∧ op.supports required = true := by
  have hop := List.find?_some h
  simp only [Bool.and_eq_true, decide_eq_true_eq] at hop
  exact ⟨List.mem_of_find?_eq_some h, hop⟩

theorem call_eq_ok {name : String} {slot : Slot} {operands : slot.Args T} {out : T} :
    (s.call name slot operands).result = .ok out ↔
      ∃ op f, s.operation? name slot.flag = some op ∧ op.callback? slot = some f ∧
        f operands = .ok out := by
  simp only [call, require, Run.result_bind_eq_ok]
  cases hop : s.operation? name slot.flag with
  | none => simp
  | some op =>
      simp only [Run.result_pure_eq_ok, exists_eq_left', Operation.call, Option.some.injEq]
      cases hf : op.callback? slot with
      | none => simp [hf]
      | some f => cases hout : f operands <;> simp [hf, hout]

theorem join_eq_ok {name : String} {before? : Option T} {out joined : T} :
    (s.join name before? out).result = .ok joined ↔
      (before? = none ∧ out = joined) ∨
        ∃ before, before? = some before ∧ (s.combine name [before, out]).result = .ok joined := by
  cases before? <;> simp [join]

end Schema

theorem Relation.enter_eq_ok {r : Relation T} {column : String} {inner out : T} :
    (r.enter column inner).result = .ok out ↔ r.embed inner = .ok out := by
  unfold enter
  cases r.embed inner <;> simp

namespace Operand

/-- What an operand stands for: a filterable column, or a literal. -/
inductive Resolves (s : Schema T) : Comparable → Operand T → Prop
  | column {c : Column T} : s.column? c.name Capability.filterable = some c →
      Resolves s (.plain (.ident c.name) []) (.column c)
  | literal {v : Value} : v.isWildcard = false → v.ident? = none →
      Resolves s (.plain v []) (.literal v)

theorem resolves_of_resolve {x : Comparable} {o : Operand T}
    (h : (resolve s x).result = .ok o) : Resolves s x o := by
  cases x with
  | call v path args => simp [resolve] at h
  | plain v path =>
      cases path with
      | cons f path => simp [resolve] at h
      | nil =>
          cases v with
          | wildcard => simp [resolve] at h
          | ident name =>
              simp only [resolve] at h
              split at h
              · next c hc =>
                  obtain rfl := (Schema.mem_of_column? hc).2.1
                  cases h
                  exact .column hc
              · simp at h
          | int n | float x | string t | boolean b =>
              cases h
              exact .literal rfl rfl

theorem resolve_of_resolves {x : Comparable} {o : Operand T} (h : Resolves s x o) :
    (resolve s x).result = .ok o := by
  cases h with
  | column hc => simp [resolve, hc]
  | @literal v hwild hident =>
      cases v with
      | wildcard => cases hwild
      | ident name => cases hident
      | int n | float x | string t | boolean b => rfl

theorem resolve_eq_ok {x : Comparable} {o : Operand T} :
    (resolve s x).result = .ok o ↔ Resolves s x o :=
  ⟨resolves_of_resolve, resolve_of_resolves⟩

end Operand

end Sift
