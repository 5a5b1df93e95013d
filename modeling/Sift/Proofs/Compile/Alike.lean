import Sift.Proofs.Compile.Compilable
import Sift.Proofs.Compile.Simulation

/-!
# Schemas that are alike

Two schemas of one shape, whose callbacks give related outputs for related operands, give related
outputs for every filter and for every order, or the same error.
-/

namespace Sift

variable {T U : Type} {R : T → U → Prop}

/-- For every use the two schemas have the same columns, the same ones of them relational, and they
have callbacks under the same names for the same operands. What corresponds is alike, and so are the
schemas behind the relational columns. -/
inductive Schema.Alike (R : T → U → Prop) : Schema T → Schema U → Prop
  | mk {s : Schema T} {s' : Schema U} :
      (∀ name slot,
        Option.Rel (Callback.Alike R) (s.callback? name slot) (s'.callback? name slot)) →
      (∀ name required,
        Option.Rel Column.SameKind (s.column? name required) (s'.column? name required)) →
      (∀ name required r r',
        s.relation? name required = some r → s'.relation? name required = some r' →
        ∀ inner inner', R inner inner' → Agree R (r.embed inner) (r'.embed inner')) →
      (∀ name required r r',
        s.relation? name required = some r → s'.relation? name required = some r' →
        Schema.Alike R r.schema r'.schema) →
      Schema.Alike R s s'

theorem Found.of_rel {α β : Type} {lax : Prop} {R : α → β → Prop} {a? : Option α} {b? : Option β}
    (h : Option.Rel R a? b?) : Found lax R a? b? := by
  cases h with
  | some hab => exact .inl ⟨_, _, rfl, rfl, hab⟩
  | none => exact .inr ⟨rfl, .inr rfl⟩

theorem Schema.Alike.follows {s : Schema T} {s' : Schema U} (h : s.Alike R s') (required : Flags) :
    s.Follows False R required s' := by
  induction h with
  | mk hcallback hcolumn hembed _ ih =>
      refine .mk (fun name slot => .of_rel (hcallback name slot))
        (fun name => .of_rel (hcolumn name required)) (fun name => hembed name required) ?_
      exact fun name => ih name required

/-! ## Entries that correspond -/

def Relation.Alike (R : T → U → Prop) (r : Relation T) (r' : Relation U) : Prop :=
  r.schema.Alike R r'.schema ∧
    ∀ inner inner', R inner inner' → Agree R (r.embed inner) (r'.embed inner')

structure Column.Alike (R : T → U → Prop) (c : Column T) (c' : Column U) : Prop where
  name : c.name = c'.name
  capabilities : c.capabilities = c'.capabilities
  relation : Option.Rel (Relation.Alike R) c.relation? c'.relation?

structure Operation.Alike (R : T → U → Prop) (op : Operation T) (op' : Operation U) : Prop where
  name : op.name = op'.name
  callback : ∀ slot, Option.Rel (Callback.Alike R) (op.callback? slot) (op'.callback? slot)

theorem Operation.Alike.supports_flag {op : Operation T} {op' : Operation U} (h : op.Alike R op')
    (slot : Slot) : op.supports slot.flag = op'.supports slot.flag := by
  rw [Bool.eq_iff_iff, Operation.supports_flag, Operation.supports_flag,
    isSome_eq_of_rel (h.callback slot)]

namespace Schema

variable {s : Schema T} {s' : Schema U}

theorem rel_column? (h : List.Forall₂ (Column.Alike R) s.columns s'.columns) (name : String)
    (required : Flags) :
    Option.Rel (Column.Alike R) (s.column? name required) (s'.column? name required) :=
  rel_find? (fun c c' hc => by rw [hc.name, hc.capabilities]) h

theorem rel_callback? (h : List.Forall₂ (Operation.Alike R) s.operations s'.operations)
    (name : String) (slot : Slot) :
    Option.Rel (Callback.Alike R) (s.callback? name slot) (s'.callback? name slot) := by
  have hfound : Option.Rel (Operation.Alike R) (s.operation? name slot.flag)
      (s'.operation? name slot.flag) :=
    rel_find? (fun op op' hop => by rw [hop.name, hop.supports_flag slot]) h
  exact rel_bind (fun op op' hop => hop.callback slot) hfound

theorem rel_relation? (h : List.Forall₂ (Column.Alike R) s.columns s'.columns) (name : String)
    (required : Flags) :
    Option.Rel (Relation.Alike R) (s.relation? name required) (s'.relation? name required) :=
  rel_bind (fun _ _ hc => hc.relation) (rel_column? h name required)

/-- Schemas are alike if their entries are, one by one. -/
theorem alike_of_entries (hcolumns : List.Forall₂ (Column.Alike R) s.columns s'.columns)
    (hoperations : List.Forall₂ (Operation.Alike R) s.operations s'.operations) :
    s.Alike R s' := by
  have hrelation {name : String} {required : Flags} {r : Relation T} {r' : Relation U}
      (hr : s.relation? name required = some r) (hr' : s'.relation? name required = some r') :
      r.Alike R r' := by
    have hrel := rel_relation? hcolumns name required
    rw [hr, hr'] at hrel
    cases hrel with
    | some h => exact h
  refine .mk (rel_callback? hoperations) (fun name required => ?_)
    (fun name required r r' hr hr' => (hrelation hr hr').2)
    (fun name required r r' hr hr' => (hrelation hr hr').1)
  exact rel_mono (fun c c' hc => isSome_eq_of_rel hc.relation) (rel_column? hcolumns name required)

/-- What is compiled against alike schemas is reported alike, and gives related outputs or the same
error. -/
theorem compile_agree_of_alike (h : s.Alike R s') :
    (∀ f, (s.compileFilter f).events = (s'.compileFilter f).events ∧
      Agree R (s.compileFilter f).result (s'.compileFilter f).result) ∧
    ∀ o, (s.compileOrder o).events = (s'.compileOrder o).events ∧
      Agree (List.Forall₂ R) (s.compileOrder o).result (s'.compileOrder o).result :=
  ⟨fun f => ((h.follows _).compileFilter f).agree, fun o => ((h.follows _).compileOrder o).agree⟩

end Schema

/-! ## Columns and their number -/

namespace Mention

/-- Lists the columns in what it is given. Floats are not taken. -/
def listing (name : String) : Operation (List String) := ⟨name, fun
  | .float => some fun _ => .error "no floats"
  | .int | .boolean | .string => some fun (column, _) => .ok [column]
  | .fields => some fun (left, right) => .ok [left, right]
  | .field => some fun column => .ok [column]
  | .constant => some fun _ => .ok []
  | .combine => some fun outs => .ok outs.flatten⟩

/-- Counts the columns in what it is given. Floats are not taken. -/
def counting (name : String) : Operation Nat := ⟨name, fun
  | .float => some fun _ => .error "no floats"
  | .int | .boolean | .string | .field => some fun _ => .ok 1
  | .fields => some fun _ => .ok 2
  | .constant => some fun _ => .ok 0
  | .combine => some fun counts => .ok (counts.foldr Nat.add 0)⟩

def names : List String := Mute.names ++ [Operation.ascendingName, Operation.descendingName]

/-- Persons, and the animals they keep. -/
def schema {T : Type} (operation : String → Operation T) (embed : T → Except String T) :
    Schema T where
  columns := [(Column.named "age").filterable.sortable, (Column.named "pets").filterable.relatedBy
    ⟨[(Column.named "name").filterable], names.map operation⟩ embed]
  operations := names.map operation

def listed : Schema (List String) := schema listing fun inner => .ok ("pets" :: inner)

def counted : Schema Nat := schema counting fun inner => .ok (inner + 1)

def Counts (columns : List String) (count : Nat) : Prop := columns.length = count

theorem length_flatten {outs : List (List String)} {counts : List Nat}
    (h : List.Forall₂ Counts outs counts) : Counts outs.flatten (counts.foldr Nat.add 0) := by
  induction h with
  | nil => rfl
  | cons hout _ ih =>
      unfold Counts at *
      simp [hout, ih]

theorem alike_operation (name : String) : (listing name).Alike Counts (counting name) := by
  refine ⟨rfl, fun slot => ?_⟩
  cases slot with
  | float => exact .some fun x y _ => .error
  | combine => exact .some fun x y h => .ok (length_flatten h)
  | int | boolean | string | fields | field | constant => exact .some fun x y _ => .ok rfl

theorem alike_operations :
    List.Forall₂ (Operation.Alike Counts) (names.map listing) (names.map counting) := by
  simp only [List.forall₂_map_left_iff, List.forall₂_map_right_iff, List.forall₂_same]
  exact fun name _ => alike_operation name

theorem listed_alike_counted : listed.Alike Counts counted := by
  have hanimals : Schema.Alike Counts ⟨[(Column.named "name").filterable], names.map listing⟩
      ⟨[(Column.named "name").filterable], names.map counting⟩ :=
    Schema.alike_of_entries (.cons ⟨rfl, rfl, .none⟩ .nil) alike_operations
  have hpets (columns : List String) (count : Nat) (h : Counts columns count) :
      Agree (ε := String) Counts (.ok ("pets" :: columns)) (.ok (count + 1)) := by
    refine .ok ?_
    rw [Counts, List.length_cons, h]
  refine Schema.alike_of_entries (.cons ⟨rfl, rfl, .none⟩ (.cons ⟨rfl, rfl, ?_⟩ .nil))
    alike_operations
  exact .some ⟨hanimals, hpets⟩

end Mention

theorem Schema.compile_agree_of_alike_counted :
    let age : Comparable := .plain (.ident "age") []
    let name : Comparable := .plain (.ident "name") []
    let pets : Comparable := .plain (.ident "pets") []
    let f : Filter :=
      [[.mk true (.compare pets .has (.group [[.mk false (.compare name .eq
        (.comparable (.plain (.string "rex") [])))]]))], [.mk false (.test age)]]
    let g : Filter := [[.mk false (.compare age .lt (.comparable (.plain (.float .zero) [])))]]
    let o : Order := [⟨["age"], true⟩]
    Mention.listed.Alike Mention.Counts Mention.counted ∧
      ((Mention.listed.compileFilter f).result = .ok ["pets", "name", "age"] ∧
        Agree Mention.Counts (Mention.listed.compileFilter f).result
          (Mention.counted.compileFilter f).result) ∧
      ((Mention.listed.compileFilter g).result = .error (.callback "<" "no floats") ∧
        Agree Mention.Counts (Mention.listed.compileFilter g).result
          (Mention.counted.compileFilter g).result) ∧
      ((Mention.listed.compileOrder o).result = .ok [["age"]] ∧
        Agree (List.Forall₂ Mention.Counts) (Mention.listed.compileOrder o).result
          (Mention.counted.compileOrder o).result) := by
  intro age name pets f g o
  obtain ⟨hfilter, horder⟩ := compile_agree_of_alike Mention.listed_alike_counted
  exact ⟨Mention.listed_alike_counted, ⟨rfl, (hfilter f).2⟩, ⟨rfl, (hfilter g).2⟩,
    ⟨rfl, (horder o).2⟩⟩

end Sift
