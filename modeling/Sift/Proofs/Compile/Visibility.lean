import Sift.Proofs.Compile.Simulation

/-!
# Columns that may not be used

A column without the capability that is asked for might as well not be there: without all such
columns, here and behind relational columns, compiling reports and gives the same.
-/

namespace Sift

variable {T : Type}

/-! ## Leaving columns out -/

mutual

/-- The schema with only those columns, also behind relational ones, that may be used for all that
is required. -/
def Schema.keep (required : Flags) : Schema T → Schema T
  | ⟨columns, operations⟩ => ⟨Columns.keep required columns, operations⟩

def Columns.keep (required : Flags) : List (Column T) → List (Column T)
  | [] => []
  | c :: r =>
    if c.capabilities.includes required then c.keep required :: Columns.keep required r
    else Columns.keep required r

def Column.keep (required : Flags) : Column T → Column T
  | ⟨name, capabilities, relation?⟩ => ⟨name, capabilities, Relation.keep required relation?⟩

def Relation.keep (required : Flags) : Option (Relation T) → Option (Relation T)
  | none => none
  | some ⟨schema, embed⟩ => some ⟨schema.keep required, embed⟩

end

variable {required : Flags}

@[simp] theorem Column.name_keep (c : Column T) : (c.keep required).name = c.name := by
  cases c
  rfl

@[simp] theorem Column.capabilities_keep (c : Column T) :
    (c.keep required).capabilities = c.capabilities := by
  cases c
  rfl

theorem Column.relation?_keep (c : Column T) :
    (c.keep required).relation? =
      c.relation?.map fun r => ⟨r.schema.keep required, r.embed⟩ := by
  obtain ⟨name, capabilities, _ | ⟨schema, embed⟩⟩ := c <;> rfl

theorem Columns.keep_eq (columns : List (Column T)) :
    Columns.keep required columns =
      (columns.filter (·.capabilities.includes required)).map (Column.keep required) := by
  induction columns with
  | nil => rfl
  | cons c r ih =>
      rw [Columns.keep, List.filter_cons, ih]
      split <;> rfl

namespace Schema

variable {s : Schema T} {name : String}

theorem column?_keep :
    (s.keep required).column? name required =
      (s.column? name required).map (Column.keep required) := by
  obtain ⟨columns, operations⟩ := s
  simp only [keep, column?, Columns.keep_eq, List.find?_map, List.find?_filter]
  congr 2
  funext c
  simp only [Function.comp_apply, Column.name_keep, Column.capabilities_keep]
  cases c.capabilities.includes required <;> simp

theorem callback?_keep {slot : Slot} :
    (s.keep required).callback? name slot = s.callback? name slot := by
  cases s
  rfl

theorem relation?_keep :
    (s.keep required).relation? name required =
      (s.relation? name required).map fun r => ⟨r.schema.keep required, r.embed⟩ := by
  rw [relation?, column?_keep, relation?]
  cases s.column? name required with
  | none => rfl
  | some c => exact c.relation?_keep

end Schema

/-! ## Nothing else is found -/

theorem Schema.sizeOf_behind {s : Schema T} {c : Column T} {r : Relation T} (hc : c ∈ s.columns)
    (hr : c.relation? = some r) : sizeOf r.schema < sizeOf s := by
  have hlt := List.sizeOf_lt_of_mem hc
  obtain ⟨columns, operations⟩ := s
  obtain ⟨name, capabilities, relation?⟩ := c
  obtain ⟨schema, embed⟩ := r
  obtain rfl : relation? = some ⟨schema, embed⟩ := hr
  simp only [Schema.mk.sizeOf_spec, Column.mk.sizeOf_spec, Option.some.sizeOf_spec,
    Relation.mk.sizeOf_spec] at hlt ⊢
  omega

/-- What holds of a schema once it holds behind its columns holds of every schema. -/
theorem Schema.induction_behind {P : Schema T → Prop}
    (h : ∀ s : Schema T, (∀ c ∈ s.columns, ∀ r, c.relation? = some r → P r.schema) → P s)
    (s : Schema T) : P s :=
  h s fun _ hc r hr =>
    have := sizeOf_behind hc hr
    induction_behind h r.schema
termination_by sizeOf s

namespace Schema

/-- Without the columns that lack a capability, what asks for it finds what it did. -/
theorem follows_keep (required : Flags) (s : Schema T) :
    s.Follows False Eq required (s.keep required) := by
  induction s using Schema.induction_behind with
  | h s ih =>
      refine .mk (fun name slot => ?_) (fun name => ?_) ?_ ?_
      · rw [callback?_keep]
        exact .refl Callback.Alike.refl _
      · rw [column?_keep]
        cases s.column? name required with
        | none => exact .inr ⟨rfl, .inr rfl⟩
        | some c => exact .inl ⟨c, _, rfl, rfl, by simp [Column.SameKind, Column.relation?_keep]⟩
      · intro name r r' hr hr' inner inner' hinner
        rw [relation?_keep, hr] at hr'
        cases hr'
        rw [hinner]
        exact .refl _
      · intro name r r' hr hr'
        rw [relation?_keep, hr] at hr'
        cases hr'
        obtain ⟨c, hc, hrel⟩ := Option.bind_eq_some_iff.1 hr
        exact ih c (mem_of_column? hc).1 r hrel

/-- Columns that may not be used so change nothing, neither in the result nor in the events. -/
theorem compile_keep (s : Schema T) :
    (∀ f, (s.keep Capability.filterable).compileFilter f = s.compileFilter f) ∧
    ∀ o, (s.keep Capability.sortable).compileOrder o = s.compileOrder o := by
  constructor
  · intro f
    exact ((s.follows_keep _).compileFilter f).eq.symm
  · intro o
    have h := (s.follows_keep Capability.sortable).compileOrder o
    rw [List.forall₂_eq_eq_eq] at h
    exact h.eq.symm

end Schema

end Sift
