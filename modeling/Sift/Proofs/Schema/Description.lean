import Sift.Proofs.Compile.Simulation
import Sift.Proofs.Schema.Listing
import Sift.Schema.Describe

/-!
# One description

A schema is described by what it has under each name. The order in which its entries were registered
leaves no trace in the text, and neither do entries that were replaced, nor the order in which a
table lists its entries before they are sorted. The same goes for the schemas behind its columns.
-/

namespace Sift

variable {T U : Type} {s : Schema T} {s' : Schema U}

/-! ## Schemas that were built -/

/-- Built of what was registered, and so are the schemas behind the columns registered. -/
inductive Schema.Built : Schema T → Prop
  | of_build {columns : List (Column T)} {operations : List (Operation T)} {s : Schema T} :
      Schema.build columns operations = .ok s →
      (∀ c ∈ columns, ∀ r, c.relation? = some r → Schema.Built r.schema) → Schema.Built s

/-- The schema behind the column, if there is one, was built. -/
def Column.Built (c : Column T) : Prop := ∀ r, c.relation? = some r → r.schema.Built

theorem Column.built_of_relation?_eq_none {c : Column T} (h : c.relation? = none) : c.Built := by
  intro r hr
  rw [h] at hr
  cases hr

namespace Schema

theorem eachOnce_of_build {columns : List (Column T)} {operations : List (Operation T)}
    (hs : build columns operations = .ok s) :
    Text.EachOnce Column.name columns s.columns ∧
      Text.EachOnce Operation.name operations s.operations := by
  rw [eq_of_build hs]
  exact ⟨Text.eachOnce_foldl columns, Text.eachOnce_foldl operations⟩

theorem Built.ascending (hs : s.Built) :
    Text.Ascending Column.name s.columns ∧ Text.Ascending Operation.name s.operations := by
  cases hs with
  | of_build hbuild =>
      obtain ⟨hcolumns, hoperations⟩ := eachOnce_of_build hbuild
      exact ⟨hcolumns.ascending, hoperations.ascending⟩

theorem Built.behind (hs : s.Built) {c : Column T} (hc : c ∈ s.columns) : c.Built := by
  cases hs with
  | of_build hbuild hbehind => exact hbehind c (((eachOnce_of_build hbuild).1.mem_iff c).1 hc).mem

end Schema

/-! ## Texts of what was registered -/

/-- The text of a column around that of the schema behind it, if there is one. -/
def Column.around (c : Column T) (behind : String) : String :=
  .join ["Column \x7b field: ", Text.quoted c.name,
    ", capabilities: ", Capability.describe c.capabilities,
    ", nested: ", if c.relation?.isSome then .join ["Some(", behind, ")"] else "None", " \x7d"]

def Schema.around (columns operations : List String) : String :=
  .join ["Declaration \x7b columns: ", listed columns, ", operators: ", listed operations, " \x7d"]

/-- The text shows the columns and operations that were registered, listed as `arranged` says, here
and in the schemas behind the columns. -/
inductive Schema.Written
    (arranged : ∀ {α : Type}, (α → String) → List α → List α → Prop) :
    List (Column T) → List (Operation T) → String → Prop
  | mk {columns columns' : List (Column T)} {operations operations' : List (Operation T)}
      {behind : Column T → String} :
      arranged Column.name columns columns' →
      arranged Operation.name operations operations' →
      (∀ c ∈ columns', ∀ r, c.relation? = some r →
        Schema.Written arranged r.schema.columns r.schema.operations (behind c)) →
      Schema.Written arranged columns operations
        (Schema.around (columns'.map fun c => c.around (behind c))
          (operations'.map Operation.describe))

theorem Columns.describe_eq (columns : List (Column T)) :
    Columns.describe columns = columns.map Column.describe := by
  induction columns with
  | nil => rfl
  | cons c r ih => rw [Columns.describe, ih, List.map_cons]

theorem Schema.describe_eq (s : Schema T) :
    s.describe =
      around (s.columns.map Column.describe) (s.operations.map Operation.describe) := by
  rw [← Columns.describe_eq]
  cases s
  rfl

theorem Column.describe_eq {c : Column T} {behind : String}
    (h : ∀ r, c.relation? = some r → behind = r.schema.describe) :
    c.describe = c.around behind := by
  obtain ⟨name, capabilities, _ | ⟨schema, embed⟩⟩ := c
  · rfl
  · rw [h _ rfl]
    rfl

/-- The description of the schema behind the column, and nothing if there is none. -/
def Column.behind (c : Column T) : String := (c.relation?.map (·.schema.describe)).getD ""

theorem Column.behind_eq {c : Column T} {r : Relation T} (hr : c.relation? = some r) :
    c.behind = r.schema.describe := by
  rw [behind, hr, Option.map_some, Option.getD_some]

namespace Schema

variable {columns : List (Column T)} {operations : List (Operation T)} {text : String}

theorem Written.imp {A B : ∀ {α : Type}, (α → String) → List α → List α → Prop}
    (hAB : ∀ {α : Type} {name : α → String} {entries l : List α},
      A name entries l → B name entries l)
    (h : Written A columns operations text) : Written B columns operations text := by
  induction h with
  | mk hcolumns hoperations _ ih => exact .mk (hAB hcolumns) (hAB hoperations) ih

theorem written_sorted_iff :
    Written Text.Sorted columns operations text ↔ Written Text.EachOnce columns operations text :=
  ⟨.imp Text.sorted_iff_eachOnce.1, .imp Text.sorted_iff_eachOnce.2⟩

/-- Where every entry is listed once, in the order of the names, the text is the description. -/
theorem Built.written_iff (hs : s.Built) (hcolumns : Text.EachOnce Column.name columns s.columns)
    (hoperations : Text.EachOnce Operation.name operations s.operations) :
    Written Text.EachOnce columns operations text ↔ text = s.describe := by
  induction hs generalizing columns operations text with
  | @of_build _ _ s hbuild hbuilt ih =>
      have hbehind {c : Column T} (hc : c ∈ s.columns) {r : Relation T}
          (hr : c.relation? = some r) {text : String} :
          Written Text.EachOnce r.schema.columns r.schema.operations text ↔
            text = r.schema.describe := by
        have hmem := (((eachOnce_of_build hbuild).1.mem_iff c).1 hc).mem
        -- Tables that are in order already count as what they were registered from.
        obtain ⟨hcolumns, hoperations⟩ := (hbuilt c hmem r hr).ascending
        exact ih c hmem r hr hcolumns.eachOnce_self hoperations.eachOnce_self
      have haround {behind : Column T → String}
          (h : ∀ c ∈ s.columns, ∀ r, c.relation? = some r → behind c = r.schema.describe) :
          s.describe = around (s.columns.map fun c => c.around (behind c))
            (s.operations.map Operation.describe) := by
        rw [describe_eq, List.map_congr_left fun c hc => Column.describe_eq (h c hc)]
      constructor
      · rintro ⟨hcs, hops, hwritten⟩
        obtain rfl := hcolumns.unique hcs
        obtain rfl := hoperations.unique hops
        exact (haround fun c hc r hr => (hbehind hc hr).1 (hwritten c hc r hr)).symm
      · rintro rfl
        rw [haround fun c _ r hr => Column.behind_eq hr]
        exact .mk hcolumns hoperations fun c hc r hr => (hbehind hc hr).2 (Column.behind_eq hr)

end Schema

/-! ## Schemas with the like under each name -/

/-- Under each name the schemas have operations for the same operands and columns for the same uses,
both relational or neither, with schemas behind them that match in turn. Their callbacks and outputs
may differ. -/
inductive Schema.Matches : Schema T → Schema U → Prop
  | mk {s : Schema T} {s' : Schema U} :
      (∀ name, Option.Rel (fun op op' => op.signatures = op'.signatures)
        (s.operation? name .none) (s'.operation? name .none)) →
      (∀ name, Option.Rel (fun c c' => c.capabilities = c'.capabilities ∧ c.SameKind c')
        (s.column? name .none) (s'.column? name .none)) →
      (∀ name r r', s.relation? name .none = some r → s'.relation? name .none = some r' →
        Schema.Matches r.schema r'.schema) →
      Schema.Matches s s'

theorem map_eq_map_of_rel {α β γ : Type} {R : α → β → Prop} {f : α → γ} {g : β → γ}
    {a? : Option α} {b? : Option β} (h : Option.Rel R a? b?)
    (hfg : ∀ a b, a? = some a → b? = some b → R a b → f a = g b) : a?.map f = b?.map g := by
  cases h with
  | none => rfl
  | some hab => exact congrArg some (hfg _ _ rfl rfl hab)

theorem Operation.describe_congr {op : Operation T} {op' : Operation U} (hname : op.name = op'.name)
    (hsignatures : op.signatures = op'.signatures) : op.describe = op'.describe := by
  rw [describe, describe, hname, hsignatures]

theorem Column.describe_congr {c : Column T} {c' : Column U} (hname : c.name = c'.name)
    (hcapabilities : c.capabilities = c'.capabilities) (hkind : c.SameKind c')
    (hbehind : ∀ r r', c.relation? = some r → c'.relation? = some r' →
      r.schema.describe = r'.schema.describe) : c.describe = c'.describe := by
  have hsome : c.relation?.isSome = c'.relation?.isSome := hkind
  have hbehind' (r' : Relation U) (hr' : c'.relation? = some r') :
      c.behind = r'.schema.describe := by
    obtain ⟨r, hr⟩ := Option.isSome_iff_exists.1 (hsome.trans (Option.isSome_of_eq_some hr'))
    rw [behind_eq hr, hbehind r r' hr hr']
  rw [describe_eq fun _ => behind_eq, describe_eq hbehind', around, around, hname, hcapabilities,
    hsome]

namespace Schema

variable {columns : List (Column T)} {operations : List (Operation T)}
  {columns' : List (Column U)} {operations' : List (Operation U)}

theorem column?_none (s : Schema T) (name : String) :
    s.column? name .none = s.columns.find? (·.name = name) := by
  simp [column?, Flags.includes, Flags.none]

theorem operation?_none (s : Schema T) (name : String) :
    s.operation? name .none = s.operations.find? (·.name = name) := by
  simp [operation?, Operation.supports, Flags.includes, Flags.none]

theorem Matches.describe_eq (h : s.Matches s') (hs : s.Built) (hs' : s'.Built) :
    s.describe = s'.describe := by
  induction h with
  | @mk s s' hoperation hcolumn _ ih =>
      -- Tables in order are compared by what is found under each name.
      have hcolumns : s.columns.map Column.describe = s'.columns.map Column.describe := by
        refine hs.ascending.1.map_eq_map hs'.ascending.1 fun name => ?_
        rw [← column?_none, ← column?_none]
        refine map_eq_map_of_rel (hcolumn name) fun c c' hc hc' hcc' => ?_
        obtain ⟨hmem, hname, -⟩ := mem_of_column? hc
        obtain ⟨hmem', hname', -⟩ := mem_of_column? hc'
        refine Column.describe_congr (hname.trans hname'.symm) hcc'.1 hcc'.2 fun r r' hr hr' => ?_
        refine ih name r r' ?_ ?_ (hs.behind hmem r hr) (hs'.behind hmem' r' hr')
        · rw [relation?_of_column? hc, hr]
        · rw [relation?_of_column? hc', hr']
      have hoperations :
          s.operations.map Operation.describe = s'.operations.map Operation.describe := by
        refine hs.ascending.2.map_eq_map hs'.ascending.2 fun name => ?_
        rw [← operation?_none, ← operation?_none]
        refine map_eq_map_of_rel (hoperation name) fun op op' hop hop' hsignatures => ?_
        have hname := (mem_of_operation? hop).2.1.trans (mem_of_operation? hop').2.1.symm
        exact Operation.describe_congr hname hsignatures
      rw [Schema.describe_eq, Schema.describe_eq, hcolumns, hoperations]

/-- Schemas that match have one text, whatever they were registered from, and in whatever order
their tables list the entries that are then sorted. It shows the last entry registered under each
name, once, and the names strictly increase, here and behind the columns. -/
theorem describe_canonical (hs : build columns operations = .ok s)
    (hs' : build columns' operations' = .ok s') (hcolumns : ∀ c ∈ columns, c.Built)
    (hcolumns' : ∀ c ∈ columns', c.Built) (h : s.Matches s') :
    ∃ text, (s.describe = text ∧ s'.describe = text) ∧
      (∀ t, Written Text.Sorted columns operations t ↔ t = text) ∧
      (∀ t, Written Text.Sorted columns' operations' t ↔ t = text) ∧
      Written Text.EachOnce columns operations text ∧
      Written Text.EachOnce columns' operations' text := by
  have hbuilt : s.Built := .of_build hs hcolumns
  have hbuilt' : s'.Built := .of_build hs' hcolumns'
  have hwritten (t : String) : Written Text.EachOnce columns operations t ↔ t = s.describe :=
    hbuilt.written_iff (eachOnce_of_build hs).1 (eachOnce_of_build hs).2
  have hwritten' (t : String) : Written Text.EachOnce columns' operations' t ↔ t = s.describe := by
    rw [h.describe_eq hbuilt hbuilt']
    exact hbuilt'.written_iff (eachOnce_of_build hs').1 (eachOnce_of_build hs').2
  refine ⟨s.describe, ⟨rfl, (h.describe_eq hbuilt hbuilt').symm⟩, fun t => ?_, fun t => ?_,
    (hwritten _).2 rfl, (hwritten' _).2 rfl⟩
  · exact written_sorted_iff.trans (hwritten t)
  · exact written_sorted_iff.trans (hwritten' t)

/-! ## Entries that correspond -/

/-- Schemas match if their entries do, one by one. -/
theorem matches_of_entries
    (hcolumns : List.Forall₂ (fun c c' => c.name = c'.name ∧ c.capabilities = c'.capabilities ∧
      Option.Rel (fun r r' => r.schema.Matches r'.schema) c.relation? c'.relation?)
      s.columns s'.columns)
    (hoperations : List.Forall₂ (fun op op' => op.name = op'.name ∧ op.signatures = op'.signatures)
      s.operations s'.operations) :
    s.Matches s' := by
  have hcolumn (name : String) : Option.Rel _ (s.column? name .none) (s'.column? name .none) :=
    rel_find? (fun c c' hcc' => by rw [hcc'.1, hcc'.2.1]) hcolumns
  have hoperation (name : String) :
      Option.Rel _ (s.operation? name .none) (s'.operation? name .none) :=
    rel_find? (fun op op' hop => by rw [hop.1, Operation.supports, hop.2, Operation.supports])
      hoperations
  refine .mk (fun name => rel_mono (fun _ _ hop => hop.2) (hoperation name))
    (fun name => rel_mono (fun c c' hcc' => ?_) (hcolumn name)) (fun name r r' hr hr' => ?_)
  · exact ⟨hcc'.2.1, isSome_eq_of_rel hcc'.2.2⟩
  · have hrel : Option.Rel _ (s.relation? name .none) (s'.relation? name .none) :=
      rel_bind (fun _ _ hcc' => hcc'.2.2) (hcolumn name)
    rw [hr, hr'] at hrel
    cases hrel with
    | some h => exact h

end Schema

/-! ## Persons and their pets -/

namespace Household

def animals {T : Type} : Schema T := ⟨[(Column.named "name").filterable], []⟩

def age {T : Type} : Column T := (Column.named "age").filterable.sortable

def pets {T : Type} (embed : T → Except String T) : Column T :=
  (Column.named "pets").filterable.relatedBy animals embed

def equality {T : Type} (f : Callback T .int) : Operation T := (Operation.named "=").on .int f

def text : String := .join [
  "Declaration \x7b columns: [",
  "Column \x7b field: \"age\", capabilities: Capabilities(FILTERABLE | SORTABLE), ",
  "nested: None \x7d, ",
  "Column \x7b field: \"pets\", capabilities: Capabilities(FILTERABLE), nested: Some(",
  "Declaration \x7b columns: [",
  "Column \x7b field: \"name\", capabilities: Capabilities(FILTERABLE), nested: None \x7d], ",
  "operators: [] \x7d) \x7d], ",
  "operators: [OperatorFunc \x7b name: \"=\", signatures: Signatures(FIELD_WITH_INT) \x7d] \x7d"]

theorem built_animals : (animals : Schema T).Built := by
  have hbuild : Schema.build [(Column.named "name").filterable] [] =
      .ok (animals : Schema T) := rfl
  refine .of_build hbuild fun c hc => ?_
  obtain rfl := List.mem_singleton.1 hc
  exact Column.built_of_relation?_eq_none rfl

theorem built_pets (embed : T → Except String T) : (pets embed).Built := by
  rintro r ⟨⟩
  exact built_animals

theorem built_age : (age : Column T).Built := Column.built_of_relation?_eq_none rfl

theorem animals_matches : (animals : Schema T).Matches (animals : Schema U) :=
  Schema.matches_of_entries (.cons ⟨rfl, rfl, .none⟩ .nil) .nil

theorem household_matches (embed : T → Except String T) (embed' : U → Except String U)
    (f : Callback T .int) (f' : Callback U .int) :
    Schema.Matches ⟨[age, pets embed], [equality f]⟩ ⟨[age, pets embed'], [equality f']⟩ := by
  have hpets : Option.Rel (fun r r' => r.schema.Matches r'.schema)
      (pets embed).relation? (pets embed').relation? := .some animals_matches
  exact Schema.matches_of_entries
    (.cons ⟨rfl, rfl, .none⟩ (.cons ⟨rfl, rfl, hpets⟩ .nil)) (.cons ⟨rfl, rfl⟩ .nil)

end Household

open Household in
/-- Persons registered in another order, with entries that are replaced and with other callbacks. -/
theorem Schema.describe_canonical_household :
    let columns : List (Column Unit) := [pets fun _ => .ok (), .named "age", age]
    let operations : List (Operation Unit) := [equality fun _ => .ok ()]
    let columns' : List (Column String) := [age, pets fun _ => .error "none"]
    let operations' : List (Operation String) := [.named "=", equality fun x => .ok x.1]
    ∃ s s', build columns operations = .ok s ∧ build columns' operations' = .ok s' ∧
      (∀ c ∈ columns, c.Built) ∧ (∀ c ∈ columns', c.Built) ∧ s.Matches s' ∧
      (s.describe = text ∧ s'.describe = text) ∧
      (∀ t, Written Text.Sorted columns operations t ↔ t = text) ∧
      Written Text.EachOnce columns' operations' text := by
  intro columns operations columns' operations'
  have hs : build columns operations =
      .ok ⟨[age, pets fun _ => .ok ()], [equality fun _ => .ok ()]⟩ := by cbv
  have hs' : build columns' operations' =
      .ok ⟨[age, pets fun _ => .error "none"], [equality fun x => .ok x.1]⟩ := by cbv
  have hnamed : (Column.named "age" : Column Unit).Built := Column.built_of_relation?_eq_none rfl
  have hcolumns : ∀ c ∈ columns, c.Built := by
    simp [columns, built_pets, built_age, hnamed]
  have hcolumns' : ∀ c ∈ columns', c.Built := by
    simp [columns', built_pets, built_age]
  have htext : Schema.describe (T := Unit)
      ⟨[age, pets fun _ => .ok ()], [equality fun _ => .ok ()]⟩ = text := by decide +kernel
  have hmatches := household_matches (fun _ => .ok ()) (fun _ => .error "none")
    (fun _ => .ok ()) (fun x => .ok x.1)
  obtain ⟨_, ⟨rfl, heq⟩, hsorted, -, -, honce⟩ :=
    describe_canonical hs hs' hcolumns hcolumns' hmatches
  rw [htext] at heq hsorted honce
  exact ⟨_, _, hs, hs', hcolumns, hcolumns', hmatches, ⟨htext, heq⟩, hsorted, honce⟩

end Sift
