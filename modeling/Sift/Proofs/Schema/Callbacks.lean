import Sift.Proofs.Compile.Lookup

/-!
# Callbacks, registered one after the other

An operation is made by registering callbacks on a name. For each shape of operands the one that was
registered last is called, and the operation takes the shapes that were registered and no others.
-/

namespace Sift

/-- One step in making an operation. -/
inductive Registration (T : Type) where
  | callback (s : Slot) (f : Callback T s)
  /-- One callback for a column and a literal of any type. -/
  | literal (f : String → Value → Except String T)
  | copy

namespace Registration

variable {T : Type}

/-- The callback that the step registers for the shape. -/
inductive Gives : Registration T → (s : Slot) → Callback T s → Prop
  | callback (s f) : Gives (.callback s f) s f
  | int (f) : Gives (.literal f) .int fun (column, n) => f column (.int n)
  | float (f) : Gives (.literal f) .float fun (column, x) => f column (.float x)
  | boolean (f) : Gives (.literal f) .boolean fun (column, b) => f column (.boolean b)
  | string (f) : Gives (.literal f) .string fun (column, s) => f column (.string s)

/-- The step registers something for the shape. -/
def Fills (r : Registration T) (s : Slot) : Prop := ∃ f, r.Gives s f

def signatures : Registration T → Flags
  | callback s _ => s.flag
  | literal _ => .ofList [Slot.int.flag, Slot.float.flag, Slot.boolean.flag, Slot.string.flag]
  | copy => .none

theorem fills_callback {s t : Slot} {f : Callback T s} : (callback s f).Fills t ↔ s = t := by
  constructor
  · rintro ⟨_, ⟨⟩⟩
    rfl
  · rintro rfl
    exact ⟨f, .callback _ f⟩

theorem fills_literal {f : String → Value → Except String T} {s : Slot} :
    (literal f).Fills s ↔ s ∈ [Slot.int, .float, .boolean, .string] := by
  constructor
  · rintro ⟨_, ⟨⟩⟩ <;> decide
  · intro h
    simp only [List.mem_cons, List.not_mem_nil, or_false] at h
    rcases h with rfl | rfl | rfl | rfl
    · exact ⟨_, .int f⟩
    · exact ⟨_, .float f⟩
    · exact ⟨_, .boolean f⟩
    · exact ⟨_, .string f⟩

theorem not_fills_copy {s : Slot} : ¬ (copy : Registration T).Fills s := by
  rintro ⟨_, ⟨⟩⟩

theorem testBit_signatures {r : Registration T} {i : Nat} :
    r.signatures.bits.testBit i = true ↔ ∃ s, r.Fills s ∧ s.index = i := by
  cases r with
  | callback s f => simp [signatures, fills_callback, Slot.flag, Flags.testBit_single]
  | literal f =>
      simp [signatures, fills_literal, Flags.testBit_ofList, Slot.flag, Flags.testBit_single]
  | copy => simp [signatures, not_fills_copy, Flags.none]

end Registration

namespace Operation

variable {T : Type} {op : Operation T} {r : Registration T} {rs : List (Registration T)} {s : Slot}

def register (op : Operation T) : Registration T → Operation T
  | .callback s f => op.on s f
  | .literal f => op.onLiteral f
  | .copy => ⟨op.name, op.callback?⟩

/-! ## One step -/

theorem callback?_on_self (op : Operation T) (f : Callback T s) :
    (op.on s f).callback? s = some f := dif_pos rfl

theorem callback?_on_of_ne {t : Slot} (h : s ≠ t) (f : Callback T s) :
    (op.on s f).callback? t = op.callback? t := dif_neg h

theorem name_register (op : Operation T) (r : Registration T) : (op.register r).name = op.name := by
  cases r <;> rfl

theorem callback?_register_of_gives {f : Callback T s} (h : r.Gives s f) (op : Operation T) :
    (op.register r).callback? s = some f := by
  cases h with
  | callback => exact op.callback?_on_self f
  | int | float | boolean | string => rfl

/-- No registration touches the callbacks for other shapes. -/
theorem callback?_register_of_not_fills (h : ¬ r.Fills s) (op : Operation T) :
    (op.register r).callback? s = op.callback? s := by
  cases r with
  | callback t f => exact callback?_on_of_ne (fun heq => h (Registration.fills_callback.2 heq)) f
  | literal f =>
      cases s with
      | int | float | boolean | string => exact absurd (Registration.fills_literal.2 (by decide)) h
      | fields | field | constant | combine => rfl
  | copy => rfl

theorem isSome_callback?_register :
    ((op.register r).callback? s).isSome = true ↔ r.Fills s ∨ (op.callback? s).isSome = true := by
  by_cases h : r.Fills s
  · obtain ⟨f, hf⟩ := h
    rw [callback?_register_of_gives hf]
    exact iff_of_true rfl (.inl ⟨f, hf⟩)
  · rw [callback?_register_of_not_fills h, or_iff_right h]

/-! ## A chain of steps -/

theorem name_foldl_register (op : Operation T) (rs : List (Registration T)) :
    (rs.foldl register op).name = op.name := by
  induction rs generalizing op with
  | nil => rfl
  | cons r rs ih => rw [List.foldl_cons, ih, name_register]

theorem callback?_foldl_of_not_fills (h : ∀ r ∈ rs, ¬ r.Fills s) (op : Operation T) :
    (rs.foldl register op).callback? s = op.callback? s := by
  induction rs generalizing op with
  | nil => rfl
  | cons r rs ih =>
      obtain ⟨hr, hrs⟩ := List.forall_mem_cons.1 h
      rw [List.foldl_cons, ih hrs, callback?_register_of_not_fills hr]

theorem isSome_callback?_foldl :
    ((rs.foldl register op).callback? s).isSome = true ↔
      (∃ r ∈ rs, r.Fills s) ∨ (op.callback? s).isSome = true := by
  induction rs generalizing op with
  | nil => simp
  | cons r rs ih =>
      rw [List.foldl_cons, ih, isSome_callback?_register, ← or_assoc]
      simp [or_comm]

theorem callback?_foldl_of_gives {f : Callback T s} {before after : List (Registration T)}
    (hf : r.Gives s f) (hafter : ∀ r' ∈ after, ¬ r'.Fills s) (op : Operation T) :
    ((before ++ r :: after).foldl register op).callback? s = some f := by
  rw [List.foldl_append, List.foldl_cons, callback?_foldl_of_not_fills hafter,
    callback?_register_of_gives hf]

theorem signatures_foldl_register (name : String) (rs : List (Registration T)) :
    (rs.foldl register (named name)).signatures = .ofList (rs.map Registration.signatures) := by
  refine Flags.eq_of_testBit fun i => ?_
  rw [testBit_signatures, Flags.testBit_ofList]
  simp only [isSome_callback?_foldl, List.mem_map, exists_exists_and_eq_and,
    Registration.testBit_signatures]
  constructor
  · rintro ⟨s, ⟨r, hr, hs⟩ | hs, hi⟩
    · exact ⟨r, hr, s, hs, hi⟩
    · cases hs
  · rintro ⟨r, hr, s, hs, hi⟩
    exact ⟨s, .inl ⟨r, hr, hs⟩, hi⟩

theorem supports_foldl_register {name : String} {required : Flags} :
    (rs.foldl register (named name)).supports required = true ↔
      ∀ i, required.bits.testBit i = true → ∃ r ∈ rs, r.signatures.bits.testBit i = true := by
  rw [supports, signatures_foldl_register, Flags.includes_iff]
  simp [Flags.testBit_ofList]

/-- An operation takes just what was registered for it. For operands of a shape it calls what was
registered last, and what is registered for one shape leaves the others as they are. -/
theorem registered (name : String) (rs : List (Registration T)) :
    (rs.foldl register (named name)).signatures = .ofList (rs.map Registration.signatures) ∧
    (∀ required, (rs.foldl register (named name)).supports required = true ↔
      ∀ i, required.bits.testBit i = true → ∃ r ∈ rs, r.signatures.bits.testBit i = true) ∧
    (∀ (s : Slot) (operands : s.Args T),
      (∀ before r after f, rs = before ++ r :: after → r.Gives s f →
        (∀ r' ∈ after, ¬ r'.Fills s) →
          (rs.foldl register (named name)).call s operands = .ofAnswer name (f operands)) ∧
      ((∀ r ∈ rs, ¬ r.Fills s) →
        (rs.foldl register (named name)).call s operands = .fail (.unknownOperation name))) ∧
    ∀ (op : Operation T) (r : Registration T) (s : Slot),
      ¬ r.Fills s → (op.register r).callback? s = op.callback? s := by
  refine ⟨signatures_foldl_register name rs, fun _ => supports_foldl_register,
    fun s operands => ⟨?last, fun hnone => ?none⟩,
    fun op _ _ hr => callback?_register_of_not_fills hr op⟩
  case last =>
    rintro before r after f rfl hf hafter
    rw [call_eq, callback?_foldl_of_gives hf hafter, name_foldl_register]
    rfl
  case none =>
    rw [call_eq, callback?_foldl_of_not_fills hnone, name_foldl_register]
    rfl

/-- A callback for integers replaces one for literals of any type there, and only there. -/
theorem registered_int_after_literal :
    let literal (column : String) (v : Value) : Except String String := .ok (column ++ v.typeName)
    let int (x : String × Int64) : Except String String := .ok x.1
    let rs : List (Registration String) := [.literal literal, .callback .int int, .copy]
    (∀ r ∈ [Registration.copy (T := String)], ¬ r.Fills .int) ∧
      (rs.foldl register (named "=")).call .int ("age", 3) = .ofAnswer "=" (.ok "age") ∧
      (∀ r ∈ [.callback .int int, Registration.copy], ¬ r.Fills .boolean) ∧
      (rs.foldl register (named "=")).call .boolean ("age", true) =
        .ofAnswer "=" (literal "age" (.boolean true)) := by
  intro literal int rs
  obtain ⟨-, -, hcall, -⟩ := registered "=" rs
  have hint : ∀ r ∈ [Registration.copy (T := String)], ¬ r.Fills .int := by
    simp [Registration.not_fills_copy]
  have hboolean : ∀ r ∈ [.callback .int int, Registration.copy], ¬ r.Fills .boolean := by
    simp [Registration.not_fills_copy, Registration.fills_callback]
  exact ⟨hint, (hcall .int ("age", 3)).1 [.literal literal] _ _ _ rfl (.callback .int int) hint,
    hboolean, (hcall .boolean ("age", true)).1 [] _ _ _ rfl (.boolean literal) hboolean⟩

end Operation

end Sift
