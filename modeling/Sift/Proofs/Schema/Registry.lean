import Mathlib.Data.List.Nodup
import Sift.Proofs.Schema.Registration
import Sift.Proofs.Schema.Signatures

/-!
# The registry

What a schema finds, and what it lists, is said of the entries that were registered: under each name
it has the last of them.
-/

namespace Sift

namespace Text

variable {α : Type} {name : α → String} {entries : List α} {a : α} {n : String}

/-- No later one of the entries has the name of `a`. -/
def IsLast (name : α → String) (entries : List α) (a : α) : Prop :=
  ∃ before after, entries = before ++ a :: after ∧ ∀ b ∈ after, name b ≠ name a

/-- The table and its lookup have the last of the entries of each name, and no other. -/
structure Tabulated (name : α → String) (abilities : α → Flags) (entries table : List α)
    (lookup? : String → Flags → Option α) : Prop where
  mem_iff : ∀ a, a ∈ table ↔ IsLast name entries a
  count_name : ∀ n, (table.map name).count n = if n ∈ entries.map name then 1 else 0
  lookup_iff : ∀ n required a, lookup? n required = some a ↔
    IsLast name entries a ∧ name a = n ∧
      ∀ i, required.bits.testBit i = true → (abilities a).bits.testBit i = true

theorem findRev?_eq_some_iff :
    entries.findRev? (name · = n) = some a ↔ IsLast name entries a ∧ name a = n := by
  rw [List.findRev?_eq_find?_reverse, List.find?_eq_some_iff_append]
  constructor
  · rintro ⟨hn, after, before, hreverse, hafter⟩
    obtain rfl : name a = n := by simpa using hn
    refine ⟨⟨before.reverse, after.reverse, ?_, fun b hb => ?_⟩, rfl⟩
    · rw [← List.reverse_reverse entries, hreverse]
      simp
    · simpa using hafter b (List.mem_reverse.1 hb)
  · rintro ⟨⟨before, after, rfl, hafter⟩, rfl⟩
    exact ⟨by simp, after.reverse, before.reverse, by simp, by simpa using hafter⟩

theorem findRev?_isSome_iff (entries : List α) (n : String) :
    (entries.findRev? (name · = n)).isSome = true ↔ n ∈ entries.map name := by
  simp [List.findRev?_eq_find?_reverse]

theorem find?_foldl_nil (entries : List α) (n : String) :
    (entries.foldl (fun table a => insertBy name a table) []).find? (name · = n) =
      entries.findRev? (name · = n) := by
  rw [find?_foldl_insertBy, List.find?_nil, Option.or_none]

theorem Ascending.mem_iff {table : List α} (h : Ascending name table) :
    a ∈ table ↔ table.find? (name · = name a) = some a :=
  ⟨h.find?_name, List.mem_of_find?_eq_some⟩

theorem Ascending.nodup {table : List α} (h : Ascending name table) : (table.map name).Nodup := by
  refine List.pairwise_map.2 (h.imp fun hlt heq => ?_)
  exact String.lt_irrefl _ (heq ▸ hlt)

theorem IsLast.mem (h : IsLast name entries a) : a ∈ entries := by
  obtain ⟨before, after, rfl, -⟩ := h
  exact List.mem_append_right _ (.head _)

theorem exists_isLast_iff : (∃ a, IsLast name entries a ∧ name a = n) ↔ n ∈ entries.map name := by
  rw [← findRev?_isSome_iff, Option.isSome_iff_exists]
  exact exists_congr fun _ => findRev?_eq_some_iff.symm

theorem mem_foldl_insertBy_iff :
    a ∈ entries.foldl (fun table a => insertBy name a table) [] ↔ IsLast name entries a := by
  rw [(ascending_foldl entries .nil).mem_iff, find?_foldl_nil, findRev?_eq_some_iff]
  exact and_iff_left rfl

theorem Ascending.count_name {table : List α} (h : Ascending name table)
    (hmem : ∀ a, a ∈ table ↔ IsLast name entries a) (n : String) :
    (table.map name).count n = if n ∈ entries.map name then 1 else 0 := by
  have hname : n ∈ table.map name ↔ n ∈ entries.map name := by
    rw [List.mem_map, exists_congr fun a => and_congr_left' (hmem a), exists_isLast_iff]
  rw [h.nodup.count]
  simp only [hname]

theorem tabulated_foldl {abilities : α → Flags} {lookup? : String → Flags → Option α}
    (hlookup : ∀ n required, lookup? n required =
      (entries.findRev? (name · = n)).filter fun a => (abilities a).includes required) :
    Tabulated name abilities entries
      (entries.foldl (fun table a => insertBy name a table) []) lookup? where
  mem_iff _ := mem_foldl_insertBy_iff
  count_name := (ascending_foldl entries .nil).count_name fun _ => mem_foldl_insertBy_iff
  lookup_iff n required a := by
    rw [hlookup, Option.filter_eq_some_iff, findRev?_eq_some_iff, Flags.includes_iff, and_assoc]

end Text

namespace Schema

variable {T : Type} {columns : List (Column T)} {operations : List (Operation T)}

theorem build_eq_emptyColumnName_iff :
    build columns operations = .error .emptyColumnName ↔ ∃ c ∈ columns, c.name = "" := by
  unfold build
  split_ifs with hcolumns hoperations <;> simpa using hcolumns

theorem build_eq_emptyOperationName_iff :
    build columns operations = .error .emptyOperationName ↔
      (∀ c ∈ columns, c.name ≠ "") ∧ ∃ op ∈ operations, op.name = "" := by
  unfold build
  split_ifs with hcolumns hoperations
  · obtain ⟨c, hc, hname⟩ : ∃ c ∈ columns, c.name = "" := by simpa using hcolumns
    exact ⟨nofun, fun h => absurd hname (h.1 c hc)⟩
  · exact ⟨fun _ => ⟨by simpa using hcolumns, by simpa using hoperations⟩, fun _ => rfl⟩
  · exact ⟨nofun, fun h => absurd (by simpa using h.2) hoperations⟩

theorem exists_build (hcolumns : ∀ c ∈ columns, c.name ≠ "")
    (hoperations : ∀ op ∈ operations, op.name ≠ "") : ∃ s, build columns operations = .ok s := by
  have hcolumns' : ¬ columns.any (·.name = "") = true := by simpa using hcolumns
  have hoperations' : ¬ operations.any (·.name = "") = true := by simpa using hoperations
  rw [build, if_neg hcolumns', if_neg hoperations']
  exact ⟨_, rfl⟩

/-- A schema is built unless some name is empty, be it that of an entry that a later one replaces.
Under each name it then lists one entry, the last one registered, and finds that entry when it may
be used for all that is required, and nothing else. -/
theorem build_tabulated (columns : List (Column T)) (operations : List (Operation T)) :
    (build columns operations = .error .emptyColumnName ↔ ∃ c ∈ columns, c.name = "") ∧
    (build columns operations = .error .emptyOperationName ↔
      (∀ c ∈ columns, c.name ≠ "") ∧ ∃ op ∈ operations, op.name = "") ∧
    ((∀ c ∈ columns, c.name ≠ "") → (∀ op ∈ operations, op.name ≠ "") →
      ∃ s, build columns operations = .ok s ∧
        Text.Tabulated Column.name Column.capabilities columns s.columns s.column? ∧
        Text.Tabulated Operation.name Operation.signatures operations s.operations
          s.operation?) := by
  refine ⟨build_eq_emptyColumnName_iff, build_eq_emptyOperationName_iff, fun hcs hops => ?_⟩
  obtain ⟨s, hs⟩ := exists_build hcs hops
  have hcolumns := Text.tabulated_foldl (column?_of_build hs)
  have hoperations := Text.tabulated_foldl (operation?_of_build hs)
  obtain rfl := eq_of_build hs
  exact ⟨_, hs, hcolumns, hoperations⟩

/-- A column registered again may be sorted by only, though it once could be filtered by. -/
theorem build_tabulated_sortable :
    let before : Column Unit := (Column.named "id").filterable
    let after : Column Unit := (Column.named "id").sortable
    (∀ c ∈ [before, after], c.name ≠ "") ∧ ∃ s, build [before, after] [] = .ok s ∧
      (s.columns.map Column.name).count "id" = 1 ∧
      s.column? "id" Capability.sortable = some after ∧
      s.column? "id" Capability.filterable = none := by
  intro before after
  have hcs : ∀ c ∈ [before, after], c.name ≠ "" := by
    simp [before, after, Column.named, Column.filterable, Column.sortable]
  obtain ⟨s, hs, hcolumns, -⟩ := (build_tabulated [before, after] []).2.2 hcs (by simp)
  have hafter : ∀ c, Text.IsLast Column.name [before, after] c → c = after := by
    rintro c ⟨_ | ⟨_, _ | ⟨_, _⟩⟩, last, heq, hlast⟩
    · cases heq
      exact absurd rfl (hlast after (.head _))
    · cases heq
      rfl
    · simp at heq
  refine ⟨hcs, s, hs, hcolumns.count_name "id", ?found, ?missed⟩
  case found =>
    have hlast : Text.IsLast Column.name [before, after] after := ⟨[before], [], rfl, by simp⟩
    exact (hcolumns.lookup_iff _ _ _).2 ⟨hlast, rfl, fun _ hi => hi⟩
  case missed =>
    refine Option.eq_none_iff_forall_ne_some.2 fun c hc => ?_
    obtain ⟨hlast, -, hbits⟩ := (hcolumns.lookup_iff _ _ _).1 hc
    obtain rfl := hafter c hlast
    exact absurd (hbits 0 (by decide)) (by decide)

end Schema

end Sift
