import Sift.Proofs.Compile.Compilable
import Sift.Proofs.Value.Comparison

/-!
# The sides of a comparison

Two literals compare as they stand, so that in the other order they compare by the mirror image of
the operator. A literal on the left of a column is taken as if it stood on the right under the same
operator, which is not what an ordering says with its sides changed.
-/

namespace Sift

variable {T : Type} {s : Schema T}

/-- The filter of one comparison. -/
def Filter.ofComparison (left : Comparable) (op : Comparison) (right : Comparable) : Filter :=
  [[.mk false (.compare left op (.comparable right))]]

/-! ## One comparison -/

theorem Schema.compileFilter_ofComparison (left : Comparable) (op : Comparison)
    (right : Comparable) :
    s.compileFilter (.ofComparison left op right) =
      Simple.compile s (.compare left op (.comparable right)) := by
  simp [compileFilter, Filter.ofComparison, Filter.compileAfter, Clause.compileAfter, Term.compile,
    join, orTrue]

namespace Operand

theorem resolve_column {c : Column T} (hc : s.column? c.name Capability.filterable = some c) :
    resolve s (.plain (.ident c.name) []) = pure (column c) := by
  simp [resolve, hc]

theorem resolve_literal {v : Value} (hwild : v.isWildcard = false) (hident : v.ident? = none) :
    resolve s (.plain v []) = pure (literal v) := by
  cases v with
  | wildcard => cases hwild
  | ident name => cases hident
  | int _ | float _ | string _ | boolean _ => rfl

end Operand

/-- Where both sides stand for something, and the left one for no relation, what they stand for is
compared. -/
theorem Simple.compile_compare {x y : Comparable} {o o' : Operand T} {op : Comparison}
    (hx : Operand.resolve s x = pure o) (hy : Operand.resolve s y = pure o')
    (hrel : o.relation? = none) :
    Simple.compile s (.compare x op (.comparable y)) = Operand.compare s op o o' := by
  simp [compile, hx, hy, hrel]

/-! ## Errors name their operator -/

theorem Schema.call_eq_error {name : String} {slot : Slot} {operands : slot.Args T}
    {e : CompileError} (h : (s.call name slot operands).result = .error e) :
    e = .unknownOperation name ∨ ∃ reason, e = .callback name reason := by
  unfold call require at h
  split at h
  · next op hop =>
      obtain rfl := (mem_of_operation? hop).2.1
      rw [pure_bind] at h
      unfold Operation.call at h
      split at h
      · cases h
        exact .inl rfl
      · split at h
        · cases h
        · next reason _ =>
            cases h
            exact .inr ⟨reason, rfl⟩
  · cases h
    exact .inl rfl

namespace Operand

variable {column : String} {v : Value} {op op' : Comparison}

theorem compareColumn_eq_error {e : CompileError} (hwild : v.isWildcard = false)
    (hident : v.ident? = none) (h : (compareColumn s op column v).result = .error e) :
    e = .unknownOperation op.symbol ∨ ∃ reason, e = .callback op.symbol reason := by
  cases v with
  | wildcard => cases hwild
  | ident name => cases hident
  | int _ | float _ | string _ | boolean _ => exact Schema.call_eq_error h

/-- Two operators give one result only as an output, since an error names the operator. -/
theorem compareColumn_eq_iff (hwild : v.isWildcard = false) (hident : v.ident? = none)
    (hop : op ≠ op') :
    (compareColumn s op column v).result = (compareColumn s op' column v).result ↔
      ∃ out, (compareColumn s op column v).result = .ok out ∧
        (compareColumn s op' column v).result = .ok out := by
  constructor
  · intro h
    cases hresult : (compareColumn s op column v).result with
    | ok out => exact ⟨out, rfl, h.symm.trans hresult⟩
    | error e =>
        have hsymbol : op.symbol ≠ op'.symbol := fun he => hop (Comparison.symbol_injective he)
        have herror := compareColumn_eq_error hwild hident hresult
        have herror' := compareColumn_eq_error hwild hident (h.symm.trans hresult)
        rcases herror with rfl | ⟨reason, rfl⟩ <;> simp [hsymbol] at herror'
  · rintro ⟨out, hout, hout'⟩
    rw [hout, hout']

end Operand

/-! ## A schema that tells the operators apart -/

namespace Echo

/-- Gives its own name for any operands. -/
def operation (name : String) : Operation String := ⟨name, fun _ => some fun _ => .ok name⟩

def age : Column String := (Column.named "age").filterable

def schema : Schema String := ⟨[age], Mute.names.map operation⟩

theorem registers (op : Comparison) (slot : Slot) : schema.Registers op.symbol slot := by
  have hname : op.symbol ∈ Mute.names := by cases op <;> decide
  exact ⟨operation op.symbol, List.mem_map_of_mem hname, rfl, rfl⟩

end Echo

/-! ## A literal on the left -/

namespace Schema

variable {c : Column T} {v : Value}

/-- On the left of a column a literal is taken as on the right, under the same operator. So the two
orders of a comparison say the same where the operator is its own mirror image, and where it is not,
they have one result only if the operator and its mirror image happen to build the same output. For
two literals the mirror image has the same result, as it should. -/
theorem compileFilter_literal_left (hc : s.column? c.name Capability.filterable = some c)
    (hrel : c.relation? = none) (hwild : v.isWildcard = false) (hident : v.ident? = none) :
    let left := Comparable.plain v []
    let right := Comparable.plain (.ident c.name) []
    (∀ op, s.compileFilter (.ofComparison left op right) =
      s.compileFilter (.ofComparison right op left)) ∧
    (∀ op, op.mirror ≠ op →
      ((s.compileFilter (.ofComparison left op right)).result =
          (s.compileFilter (.ofComparison right op.mirror left)).result ↔
        ∃ out, (s.compileFilter (.ofComparison right op left)).result = .ok out ∧
          (s.compileFilter (.ofComparison right op.mirror left)).result = .ok out)) ∧
    ∀ w op, w.isWildcard = false → w.ident? = none → op ≠ .has →
      (s.compileFilter (.ofComparison left op (.plain w []))).result =
        (s.compileFilter (.ofComparison (.plain w []) op.mirror left)).result := by
  intro left right
  have hleft : Operand.resolve s left = pure (.literal v) := Operand.resolve_literal hwild hident
  have hright : Operand.resolve s right = pure (.column c) := Operand.resolve_column hc
  have hcolumn : (Operand.column c).relation? = none := by rw [Operand.relation?, hrel]; rfl
  have hlr (op : Comparison) : s.compileFilter (.ofComparison left op right) =
      Operand.compareColumn s op c.name v := by
    rw [compileFilter_ofComparison, Simple.compile_compare hleft hright rfl, Operand.compare]
  have hrl (op : Comparison) : s.compileFilter (.ofComparison right op left) =
      Operand.compareColumn s op c.name v := by
    rw [compileFilter_ofComparison, Simple.compile_compare hright hleft hcolumn, Operand.compare]
  refine ⟨fun op => (hlr op).trans (hrl op).symm, fun op hop => ?_, fun w op hw hw' hop => ?_⟩
  · rw [hlr, hrl, hrl]
    exact Operand.compareColumn_eq_iff hwild hident hop.symm
  · have hw := Operand.resolve_literal (s := s) hw hw'
    rw [compileFilter_ofComparison, compileFilter_ofComparison,
      Simple.compile_compare hleft hw rfl, Simple.compile_compare hw hleft rfl, Operand.compare,
      Operand.compare, Run.result_report_bind, Run.result_report_bind, Value.compare_mirror hop]

theorem compileFilter_literal_left_age :
    let five := Comparable.plain (.int 5) []
    let age := Comparable.plain (.ident "age") []
    let result left op right := (Echo.schema.compileFilter (.ofComparison left op right)).result
    (Echo.schema.column? Echo.age.name Capability.filterable = some Echo.age ∧
      Echo.age.relation? = none ∧ (Value.int 5).isWildcard = false ∧
      (Value.int 5).ident? = none) ∧
    result five .lt age = result age .lt five ∧
    (Comparison.mirror .lt ≠ .lt ∧ (result five .lt age = result age .gt five ↔
      ∃ out, result age .lt five = .ok out ∧ result age .gt five = .ok out)) ∧
    result five .lt (.plain (.int 7) []) = result (.plain (.int 7) []) .gt five := by
  intro five age result
  obtain ⟨hside, hmirror, hliterals⟩ :=
    compileFilter_literal_left (s := Echo.schema) (c := Echo.age) (v := .int 5) rfl rfl rfl rfl
  have hlt : Comparison.mirror .lt ≠ .lt := by decide
  exact ⟨⟨rfl, rfl, rfl, rfl⟩, congrArg Run.result (hside .lt), ⟨hlt, hmirror .lt hlt⟩,
    hliterals (.int 7) .lt rfl rfl (by decide)⟩

/-- `5 < age` is compiled as `age < 5`, and not as `age > 5`. -/
theorem compileFilter_five_lt_age :
    let five := Comparable.plain (.int 5) []
    let age := Comparable.plain (.ident "age") []
    let result left op right := (Echo.schema.compileFilter (.ofComparison left op right)).result
    ((∀ op : Comparison, ∀ slot, Echo.schema.Registers op.symbol slot) ∧
      Echo.schema.column? "age" Capability.filterable = some Echo.age ∧
      Echo.age.relation? = none) ∧
    result five .lt age = .ok "<" ∧ result age (.mirror .lt) five = .ok ">" ∧
      result five .lt age ≠ result age (.mirror .lt) five := by
  intro five age result
  have hlt : result five .lt age = .ok "<" := rfl
  have hgt : result age (.mirror .lt) five = .ok ">" := rfl
  refine ⟨⟨Echo.registers, rfl, rfl⟩, hlt, hgt, ?_⟩
  rw [hlt, hgt]
  simp

end Schema

end Sift
