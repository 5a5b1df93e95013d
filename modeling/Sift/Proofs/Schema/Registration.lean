import Sift.Schema.Basic

/-!
# Registered entries

A schema that is built keeps its entries in strictly increasing order of their names. Of the entries
registered under one name the last one counts, and no earlier one is ever found, whatever it may be
used for.
-/

namespace Sift

namespace Text

variable {α : Type} {name : α → String}

/-- In strictly increasing order of the names, so that no two entries have one name. -/
def Ascending (name : α → String) (l : List α) : Prop := l.Pairwise fun a b => name a < name b

instance (l : List α) : Decidable (Ascending name l) :=
  inferInstanceAs (Decidable (l.Pairwise fun a b => name a < name b))

theorem mem_of_mem_insertBy {a b : α} {l : List α} (h : b ∈ insertBy name a l) :
    b = a ∨ b ∈ l := by
  induction l with
  | nil => exact .inl (List.mem_singleton.1 h)
  | cons c r ih =>
      unfold insertBy at h
      split at h
      · exact List.mem_cons.1 h
      · split at h
        · rcases List.mem_cons.1 h with rfl | h
          · exact .inl rfl
          · exact .inr (.tail _ h)
        · rcases List.mem_cons.1 h with rfl | h
          · exact .inr (.head _)
          · exact (ih h).imp_right (.tail _)

theorem Ascending.insertBy {l : List α} (h : Ascending name l) (a : α) :
    Ascending name (insertBy name a l) := by
  induction l with
  | nil => exact List.pairwise_singleton ..
  | cons b r ih =>
      obtain ⟨hb, hr⟩ := List.pairwise_cons.1 h
      unfold Text.insertBy
      split
      · next hlt =>
          refine List.pairwise_cons.2 ⟨fun c hc => ?_, h⟩
          rcases List.mem_cons.1 hc with rfl | hc
          · exact hlt
          · exact String.lt_trans hlt (hb c hc)
      · next hnot =>
          split
          · next heq => exact List.pairwise_cons.2 ⟨fun c hc => heq ▸ hb c hc, hr⟩
          · next hne =>
              refine List.pairwise_cons.2 ⟨fun c hc => ?_, ih hr⟩
              rcases mem_of_mem_insertBy hc with rfl | hc
              · exact Std.lt_of_le_of_ne (String.not_lt.1 hnot) (Ne.symm hne)
              · exact hb c hc

theorem ascending_foldl (l : List α) {table : List α} (h : Ascending name table) :
    Ascending name (l.foldl (fun table a => insertBy name a table) table) := by
  induction l generalizing table with
  | nil => exact h
  | cons a r ih => exact ih (h.insertBy a)

theorem find?_cons_name (a : α) (l : List α) (n : String) :
    (a :: l).find? (name · = n) = if name a = n then some a else l.find? (name · = n) := by
  rw [List.find?_cons]
  by_cases h : name a = n <;> simp [h]

theorem find?_insertBy (a : α) (l : List α) (n : String) :
    (insertBy name a l).find? (name · = n) =
      if name a = n then some a else l.find? (name · = n) := by
  induction l with
  | nil => exact find?_cons_name a [] n
  | cons b r ih =>
      unfold insertBy
      split
      · exact find?_cons_name a (b :: r) n
      · split
        · next heq =>
            rw [find?_cons_name, find?_cons_name]
            by_cases hn : name a = n
            · rw [if_pos hn, if_pos hn]
            · rw [if_neg hn, if_neg hn, if_neg (heq ▸ hn)]
        · next hne =>
            rw [find?_cons_name, find?_cons_name, ih]
            by_cases hb : name b = n
            · rw [if_pos hb, if_pos hb, if_neg (hb ▸ hne)]
            · rw [if_neg hb, if_neg hb]

/-- The last entry of a name is the one that stays. -/
theorem find?_foldl_insertBy (l table : List α) (n : String) :
    (l.foldl (fun table a => insertBy name a table) table).find? (name · = n) =
      (l.findRev? (name · = n)).or (table.find? (name · = n)) := by
  induction l generalizing table with
  | nil => simp
  | cons a r ih =>
      rw [List.foldl_cons, ih, find?_insertBy, List.findRev?]
      cases r.findRev? (name · = n) with
      | some b => rfl
      | none => split <;> simp [*]

/-- An entry that is passed over has no other one of its name behind it. -/
theorem Ascending.find?_and {l : List α} (h : Ascending name l) (n : String) (p : α → Bool) :
    l.find? (fun a => name a = n && p a) = (l.find? (name · = n)).filter p := by
  induction l with
  | nil => rfl
  | cons a r ih =>
      obtain ⟨ha, hr⟩ := List.pairwise_cons.1 h
      rw [List.find?_cons, find?_cons_name]
      by_cases hn : name a = n
      · have hnone : r.find? (fun b => name b = n && p b) = none := by
          refine List.find?_eq_none.2 fun b hb => ?_
          have hne : name b ≠ n := by
            rw [← hn]
            exact fun hb' => String.lt_irrefl _ (hb' ▸ ha b hb)
          simp [hne]
        cases hp : p a <;> simp [hn, hp, hnone, Option.filter]
      · simp only [hn, decide_false, Bool.false_and, if_false]
        exact ih hr

theorem Ascending.find?_name {l : List α} (h : Ascending name l) {a : α} (ha : a ∈ l) :
    l.find? (name · = name a) = some a := by
  induction l with
  | nil => cases ha
  | cons b r ih =>
      obtain ⟨hb, hr⟩ := List.pairwise_cons.1 h
      rw [find?_cons_name]
      rcases List.mem_cons.1 ha with rfl | ha
      · rw [if_pos rfl]
      · have hne : name b ≠ name a := fun heq => String.lt_irrefl _ (heq ▸ hb a ha)
        rw [if_neg hne, ih hr ha]

end Text

namespace Schema

variable {T : Type} {s : Schema T} {columns : List (Column T)} {operations : List (Operation T)}

theorem eq_of_build (h : build columns operations = .ok s) :
    s = ⟨columns.foldl (fun table c => Text.insertBy Column.name c table) [],
      operations.foldl (fun table op => Text.insertBy Operation.name op table) []⟩ := by
  unfold build at h
  split at h
  · cases h
  · split at h <;> cases h
    rfl

theorem column?_of_build (h : build columns operations = .ok s) (name : String)
    (required : Flags) :
    s.column? name required =
      (columns.findRev? (·.name = name)).filter (·.capabilities.includes required) := by
  rw [eq_of_build h, column?, (Text.ascending_foldl columns .nil).find?_and,
    Text.find?_foldl_insertBy, List.find?_nil, Option.or_none]

theorem operation?_of_build (h : build columns operations = .ok s) (name : String)
    (required : Flags) :
    s.operation? name required =
      (operations.findRev? (·.name = name)).filter (·.supports required) := by
  rw [eq_of_build h, operation?, (Text.ascending_foldl operations .nil).find?_and,
    Text.find?_foldl_insertBy, List.find?_nil, Option.or_none]

theorem column?_of_mem (h : Text.Ascending Column.name s.columns) {c : Column T}
    (hc : c ∈ s.columns) {required : Flags} (hrequired : c.capabilities.includes required = true) :
    s.column? c.name required = some c := by
  rw [column?, h.find?_and, h.find?_name hc]
  simp [Option.filter, hrequired]

theorem operation?_of_mem (h : Text.Ascending Operation.name s.operations) {op : Operation T}
    (hop : op ∈ s.operations) {required : Flags} (hrequired : op.supports required = true) :
    s.operation? op.name required = some op := by
  rw [operation?, h.find?_and, h.find?_name hop]
  simp [Option.filter, hrequired]

end Schema

end Sift
