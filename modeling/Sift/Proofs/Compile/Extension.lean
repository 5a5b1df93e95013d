import Sift.Proofs.Compile.Compilable
import Sift.Proofs.Compile.Simulation
import Sift.Proofs.Schema.Registration

/-!
# Extended schemas

A schema may be given more columns, more capabilities and more operations, here and behind its
relational columns: what compiles against it compiles to the same output afterwards.
-/

namespace Sift

variable {T : Type}

/-- The schema `s'` has all that `s` has: its callbacks, and for every use its columns, the same
ones of them relational, with the same embeddings and with extended schemas behind them. -/
inductive Schema.Extends : Schema T → Schema T → Prop
  | mk {s s' : Schema T} :
      (∀ name slot f, s.callback? name slot = some f → s'.callback? name slot = some f) →
      (∀ name required c, s.column? name required = some c →
        ∃ c', s'.column? name required = some c' ∧ c.SameKind c') →
      (∀ name required r r',
        s.relation? name required = some r → s'.relation? name required = some r' →
        r.embed = r'.embed) →
      (∀ name required r r',
        s.relation? name required = some r → s'.relation? name required = some r' →
        Schema.Extends r'.schema r.schema) →
      Schema.Extends s' s

theorem Found.of_forall {α β : Type} {R : α → β → Prop} {a? : Option α} {b? : Option β}
    (h : ∀ a, a? = some a → ∃ b, b? = some b ∧ R a b) : Found True R a? b? := by
  cases a? with
  | none => exact .inr ⟨rfl, .inl trivial⟩
  | some a =>
      obtain ⟨b, hb, hab⟩ := h a rfl
      exact .inl ⟨a, b, rfl, hb, hab⟩

namespace Schema

variable {s s' : Schema T}

theorem Extends.follows (h : s'.Extends s) (required : Flags) :
    s.Follows True Eq required s' := by
  induction h with
  | mk hcallback hcolumn hembed _ ih =>
      refine .mk (fun name slot => .of_forall fun f hf => ?_)
        (fun name => .of_forall (hcolumn name required)) ?_ (fun name => ih name required)
      · exact ⟨f, hcallback name slot f hf, .refl f⟩
      · intro name r r' hr hr' inner inner' hinner
        rw [hembed name required r r' hr hr', hinner]
        exact .refl _

/-- What compiles against a schema compiles to the same against every schema that extends it. -/
theorem compile_of_extends (h : s'.Extends s) :
    (∀ f out, (s.compileFilter f).result = .ok out → (s'.compileFilter f).result = .ok out) ∧
    ∀ o outs, (s.compileOrder o).result = .ok outs → (s'.compileOrder o).result = .ok outs := by
  constructor
  · intro f out hout
    obtain ⟨out', hout', rfl⟩ := ((h.follows _).compileFilter f).result_eq_ok hout
    exact hout'
  · intro o outs houts
    obtain ⟨outs', houts', heq⟩ := ((h.follows _).compileOrder o).result_eq_ok houts
    rw [List.forall₂_eq_eq_eq] at heq
    rw [heq, houts']

/-! ## Entries that are extended -/

/-- Where no two entries have one name, as in all schemas that are built, a schema is extended as
its entries are. -/
theorem extends_of_entries (hcolumns' : Text.Ascending Column.name s'.columns)
    (hoperations' : Text.Ascending Operation.name s'.operations)
    (hcolumns : ∀ c ∈ s.columns, ∃ c' ∈ s'.columns, c'.name = c.name ∧
      c'.capabilities.includes c.capabilities = true ∧
      Option.Rel (fun r r' => r'.schema.Extends r.schema ∧ r.embed = r'.embed)
        c.relation? c'.relation?)
    (hoperations : ∀ op ∈ s.operations, ∃ op' ∈ s'.operations, op'.name = op.name ∧
      ∀ slot f, op.callback? slot = some f → op'.callback? slot = some f) :
    s'.Extends s := by
  have hfound {name : String} {required : Flags} {c : Column T}
      (hc : s.column? name required = some c) :
      ∃ c', s'.column? name required = some c' ∧
        Option.Rel (fun r r' => r'.schema.Extends r.schema ∧ r.embed = r'.embed)
          c.relation? c'.relation? := by
    obtain ⟨hmem, rfl, hrequired⟩ := mem_of_column? hc
    obtain ⟨c', hmem', hname, hcapabilities, hrel⟩ := hcolumns c hmem
    rw [← hname]
    exact ⟨c', column?_of_mem hcolumns' hmem' (Flags.includes_trans hcapabilities hrequired), hrel⟩
  have hrelation {name : String} {required : Flags} {r r' : Relation T}
      (hr : s.relation? name required = some r) (hr' : s'.relation? name required = some r') :
      r'.schema.Extends r.schema ∧ r.embed = r'.embed := by
    obtain ⟨c, hc, hcr⟩ := Option.bind_eq_some_iff.1 hr
    obtain ⟨c', hc', hrel⟩ := hfound hc
    rw [relation?_of_column? hc'] at hr'
    rw [hcr, hr'] at hrel
    cases hrel with
    | some h => exact h
  refine .mk (fun name slot f hf => ?_) (fun name required c hc => ?_)
    (fun name required r r' hr hr' => (hrelation hr hr').2)
    (fun name required r r' hr hr' => (hrelation hr hr').1)
  · obtain ⟨op, hop, hopf⟩ := Option.bind_eq_some_iff.1 hf
    obtain ⟨hmem, rfl, -⟩ := mem_of_operation? hop
    obtain ⟨op', hmem', hname, hcallback⟩ := hoperations op hmem
    have hf' := hcallback slot f hopf
    have hsupports : op'.supports slot.flag = true :=
      Operation.supports_flag.2 (by rw [hf', Option.isSome_some])
    rw [callback?, ← hname, operation?_of_mem hoperations' hmem' hsupports, Option.bind_some, hf']
  · obtain ⟨c', hc', hrel⟩ := hfound hc
    exact ⟨c', hc', isSome_eq_of_rel hrel⟩

end Schema

/-! ## A schema that has grown -/

namespace Growth

/-- Gives its own name for operands of these shapes. -/
def operation (name : String) (slots : List Slot) : Operation String :=
  ⟨name, fun slot => if slot ∈ slots then some fun _ => .ok name else none⟩

def embed (inner : String) : Except String String := .ok ("pets " ++ inner)

def animals : Schema String :=
  ⟨[(Column.named "name").filterable], [operation "=" [.string]]⟩

/-- Also by age, and by equal numbers. -/
def animals' : Schema String :=
  ⟨[(Column.named "age").filterable, (Column.named "name").filterable.sortable],
    [operation "=" [.int, .string]]⟩

def persons : Schema String where
  columns := [(Column.named "name").sortable,
    (Column.named "pets").filterable.relatedBy animals embed]
  operations := [operation "_asc" [.field], operation "_not" [.combine]]

def persons' : Schema String where
  columns := [(Column.named "age").filterable, (Column.named "name").filterable.sortable,
    (Column.named "pets").filterable.sortable.relatedBy animals' embed]
  operations := [operation "<" [.int], operation "_asc" [.field], operation "_not" [.combine, .int]]

theorem callback?_operation {name : String} {slots slots' : List Slot} (h : slots ⊆ slots')
    (slot : Slot) (f : Callback String slot)
    (hf : (operation name slots).callback? slot = some f) :
    (operation name slots').callback? slot = some f := by
  simp only [operation] at hf ⊢
  split at hf
  · next hslot => rw [if_pos (h hslot), hf]
  · cases hf

theorem animals'_extends : animals'.Extends animals := by
  refine Schema.extends_of_entries (by decide) (by decide) ?_ ?_
  · intro c hc
    rw [List.mem_singleton.1 hc]
    exact ⟨_, .tail _ (.head _), rfl, rfl, .none⟩
  · intro op hop
    rw [List.mem_singleton.1 hop]
    exact ⟨_, .head _, rfl, callback?_operation (by decide)⟩

theorem persons'_extends : persons'.Extends persons := by
  refine Schema.extends_of_entries (by decide) (by decide) ?_ ?_
  · intro c hc
    simp only [persons, List.mem_cons, List.not_mem_nil, or_false] at hc
    rcases hc with rfl | rfl
    · exact ⟨_, .tail _ (.head _), rfl, rfl, .none⟩
    · exact ⟨_, .tail _ (.tail _ (.head _)), rfl, rfl, .some ⟨animals'_extends, rfl⟩⟩
  · intro op hop
    simp only [persons, List.mem_cons, List.not_mem_nil, or_false] at hop
    rcases hop with rfl | rfl
    · exact ⟨_, .tail _ (.head _), rfl, callback?_operation (by decide)⟩
    · exact ⟨_, .tail _ (.tail _ (.head _)), rfl, callback?_operation (by decide)⟩

end Growth

theorem Schema.compile_of_extends_persons :
    let pets : Comparable := .plain (.ident "pets") []
    let name : Comparable := .plain (.ident "name") []
    let f : Filter :=
      [[.mk true (.compare pets .has (.group [[.mk false (.compare name .eq
        (.comparable (.plain (.string "rex") [])))]]))]]
    let o : Order := [⟨["name"], false⟩]
    Growth.persons'.Extends Growth.persons ∧
      ((Growth.persons.compileFilter f).result = .ok "_not" ∧
        (Growth.persons'.compileFilter f).result = .ok "_not") ∧
      (Growth.persons.compileOrder o).result = .ok ["_asc"] ∧
        (Growth.persons'.compileOrder o).result = .ok ["_asc"] := by
  intro pets name f o
  obtain ⟨hfilter, horder⟩ := compile_of_extends Growth.persons'_extends
  exact ⟨Growth.persons'_extends, ⟨rfl, hfilter f _ rfl⟩, rfl, horder o _ rfl⟩

end Sift
