import Mathlib.Data.List.Forall2
import Sift.Compile.Order
import Sift.Proofs.Compile.Success
import Sift.Proofs.Schema.Signatures

/-!
# What compiling looks up

A schema is used only through its look-ups: the callback under a name for operands of one shape, the
column of a name that can do what is required, and the relation of such a column.
-/

namespace Sift

/-! ## Results that are related -/

section

variable {α β γ δ : Type} {R : α → β → Prop} {S : γ → δ → Prop}

theorem isSome_eq_of_rel {a? : Option α} {b? : Option β} (h : Option.Rel R a? b?) :
    a?.isSome = b?.isSome := by
  cases h <;> rfl

theorem rel_mono {R' : α → β → Prop} (hR : ∀ a b, R a b → R' a b) {a? : Option α} {b? : Option β}
    (h : Option.Rel R a? b?) : Option.Rel R' a? b? := by
  cases h with
  | none => exact .none
  | some hab => exact .some (hR _ _ hab)

theorem rel_bind {f : α → Option γ} {g : β → Option δ}
    (hfg : ∀ a b, R a b → Option.Rel S (f a) (g b)) {a? : Option α} {b? : Option β}
    (h : Option.Rel R a? b?) : Option.Rel S (a?.bind f) (b?.bind g) := by
  cases h with
  | none => exact .none
  | some hab => exact hfg _ _ hab

theorem rel_filter {p : α → Bool} {q : β → Bool} (hpq : ∀ a b, R a b → p a = q b) {a? : Option α}
    {b? : Option β} (h : Option.Rel R a? b?) : Option.Rel R (a?.filter p) (b?.filter q) := by
  cases h with
  | none => exact .none
  | @some a b hab =>
      rw [Option.filter_some, Option.filter_some, hpq a b hab]
      split
      · exact .some hab
      · exact .none

/-- In lists that correspond one by one, a search for the like finds what corresponds. -/
theorem rel_find? {p : α → Bool} {q : β → Bool} (hpq : ∀ a b, R a b → p a = q b) {l : List α}
    {l' : List β} (h : List.Forall₂ R l l') : Option.Rel R (l.find? p) (l'.find? q) := by
  induction h with
  | nil => exact .none
  | @cons a b r r' hab _ ih =>
      rw [List.find?_cons, List.find?_cons, hpq a b hab]
      cases q b with
      | true => exact .some hab
      | false => exact ih

end

/-! ## Look-ups in a schema -/

variable {T : Type} {s : Schema T}

/-- What a callback answers, as a run. -/
def Run.ofAnswer (name : String) : Except String T → Compiled T
  | .ok out => pure out
  | .error reason => .fail (.callback name reason)

theorem Run.result_ofAnswer (name : String) (x : Except String T) :
    (Run.ofAnswer name x).result = x.mapError (.callback name) := by
  cases x <;> rfl

theorem Operation.call_eq (op : Operation T) (slot : Slot) (operands : slot.Args T) :
    op.call slot operands =
      match op.callback? slot with
      | none => .fail (.unknownOperation op.name)
      | some f => .ofAnswer op.name (f operands) := by
  rw [call]
  cases op.callback? slot with
  | none => rfl
  | some f => cases f operands <;> rfl

namespace Schema

/-- The callback under the name for operands of the shape `slot`. -/
def callback? (s : Schema T) (name : String) (slot : Slot) : Option (Callback T slot) :=
  (s.operation? name slot.flag).bind fun op => op.callback? slot

/-- The relation of the column of the name, if the column may be used for all that is required. -/
def relation? (s : Schema T) (name : String) (required : Flags) : Option (Relation T) :=
  (s.column? name required).bind Column.relation?

theorem relation?_of_column? {name : String} {required : Flags} {c : Column T}
    (h : s.column? name required = some c) : s.relation? name required = c.relation? := by
  rw [relation?, h, Option.bind_some]

/-- An operation that is found for a shape has a callback for it. -/
theorem exists_callback_of_operation? {name : String} {slot : Slot} {op : Operation T}
    (h : s.operation? name slot.flag = some op) :
    ∃ f, op.callback? slot = some f ∧ s.callback? name slot = some f := by
  obtain ⟨f, hf⟩ := Option.isSome_iff_exists.1
    (Operation.supports_flag.1 (mem_of_operation? h).2.2)
  exact ⟨f, hf, by rw [callback?, h, Option.bind_some, hf]⟩

theorem call_eq (name : String) (slot : Slot) (operands : slot.Args T) :
    s.call name slot operands =
      match s.callback? name slot with
      | none => .fail (.unknownOperation name)
      | some f => .ofAnswer name (f operands) := by
  cases hop : s.operation? name slot.flag with
  | none => simp [call, require, callback?, hop]
  | some op =>
      obtain ⟨f, hf, hcallback⟩ := exists_callback_of_operation? hop
      obtain rfl := (mem_of_operation? hop).2.1
      simp only [call, require, hop, hcallback, pure_bind, Operation.call_eq, hf]

end Schema

theorem Relation.enter_eq (r : Relation T) (column : String) (inner : T) :
    r.enter column inner = .ofAnswer column (r.embed inner) := by
  unfold enter
  cases r.embed inner <;> rfl

theorem Operand.resolve_ident (name : String) :
    resolve s (.plain (.ident name) []) =
      match s.column? name Capability.filterable with
      | some c => pure (column c)
      | none => ⟨[.notFilterable name], .error (.unknownField name)⟩ := by
  simp only [resolve]
  cases s.column? name Capability.filterable <;> rfl

/-- The event comes between the look-ups and the call. -/
theorem Key.compile_eq (name : String) (descending : Bool) :
    Key.compile s ⟨[name], descending⟩ =
      match s.column? name Capability.sortable with
      | none => .fail (.unknownField name)
      | some _ =>
        let direction := Key.direction ⟨[name], descending⟩
        match s.callback? direction .field with
        | none => .fail (.unknownOperation direction)
        | some f =>
          Run.report (.orderingKey name direction) >>= fun _ => .ofAnswer direction (f name) := by
  cases hc : s.column? name Capability.sortable with
  | none => simp [compile, hc]
  | some c =>
      obtain rfl := (Schema.mem_of_column? hc).2.1
      generalize hd : Key.direction ⟨[c.name], descending⟩ = direction
      cases hop : s.operation? direction Slot.field.flag with
      | none => simp [compile, hc, hd, Schema.require, Schema.callback?, hop]
      | some op =>
          obtain ⟨f, hf, hcallback⟩ := Schema.exists_callback_of_operation? hop
          obtain rfl := (Schema.mem_of_operation? hop).2.1
          simp only [compile, hc, hd, Schema.require, hop, hcallback, pure_bind,
            Operation.call_eq, hf]

end Sift
