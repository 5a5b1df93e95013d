import Mathlib.Data.List.Nodup
import Sift.Proofs.Compile.Lookup
import Sift.Proofs.Schema.Registration
import Sift.Schema.Backend

/-!
# Catalogs

A catalog says which columns there are and which backend builds the output for them, and behind a
relational column stands a catalog with a backend of its own. In the schema that is declared from it
everything is found that the catalog and its backend have, and nothing else.
-/

namespace Sift

variable {T : Type}

mutual

structure Catalog (T : Type) where
  backend : Backend T
  entries : List (Entry T)

inductive Entry (T : Type) where
  /-- A column without relation. -/
  | plain (name : String) (capabilities : Flags)
  /-- A column to filter related rows by, and perhaps to sort by. -/
  | related (name : String) (sortable : Bool) (link : Link T)

/-- The catalog of related rows, and the backend that follows the relation to them. -/
structure Link (T : Type) where
  backend : RelationalBackend T
  catalog : Catalog T

end

namespace Entry

def name : Entry T → String
  | plain name _ => name
  | related name .. => name

def capabilities : Entry T → Flags
  | plain _ capabilities => capabilities
  | related _ sortable _ =>
    if sortable then Capability.filterable.union Capability.sortable else Capability.filterable

def link? : Entry T → Option (Link T)
  | plain .. => none
  | related _ _ link => some link

end Entry

/-- The output for the related rows, from that of the filter on them. -/
def Link.enter (l : Link T) (column : String) (inner : T) : Except String T :=
  l.backend.within [column] fun _ => .ok inner

/-- The entry of the name, if it may be used for all that is required. Of two entries of one name
the later one counts. -/
def Catalog.entry? (k : Catalog T) (name : String) (required : Flags) : Option (Entry T) :=
  (k.entries.findRev? (·.name = name)).filter (·.capabilities.includes required)

/-! ## Declaring -/

mutual

/-- The schema with the columns of the catalog and the operations of its backend. -/
def Catalog.declare : Catalog T → Except SchemaError (Schema T)
  | ⟨backend, entries⟩ => do Schema.build (← Entries.declare entries) backend.operations

def Entry.declare : Entry T → Except SchemaError (Column T)
  | .plain name capabilities => return ⟨name, capabilities, none⟩
  | .related name sortable ⟨backend, catalog⟩ => do
    let column := backend.column name (← catalog.declare)
    return if sortable then column.sortable else column

def Entries.declare : List (Entry T) → Except SchemaError (List (Column T))
  | [] => return []
  | e :: r => return (← e.declare) :: (← Entries.declare r)

end

theorem Except.bind_eq_ok {ε α β : Type} {x : Except ε α} {f : α → Except ε β} {b : β} :
    x >>= f = .ok b ↔ ∃ a, x = .ok a ∧ f a = .ok b := by
  cases x <;> simp [bind, Except.bind]

/-- The column that is declared from an entry. -/
def Entry.Declares (e : Entry T) (c : Column T) : Prop := e.declare = .ok c

/-- The relation that is declared from a link, under the name of a column. -/
structure Link.Declares (l : Link T) (column : String) (r : Relation T) : Prop where
  schema : l.catalog.declare = .ok r.schema
  embed : r.embed = l.enter column

namespace Entry.Declares

variable {e : Entry T} {c : Column T}

/-- The column has the name and the capabilities of the entry, and leads where the entry does. -/
theorem exists_relation? (h : e.Declares c) :
    ∃ r?, c = ⟨e.name, e.capabilities, r?⟩ ∧
      Option.Rel (fun l r => l.Declares e.name r) e.link? r? := by
  cases e with
  | plain name capabilities =>
      cases h
      exact ⟨none, rfl, .none⟩
  | related name sortable l =>
      obtain ⟨backend, catalog⟩ := l
      obtain ⟨s, hs, hc⟩ := Except.bind_eq_ok.1 h
      have hnone : Flags.none.union Capability.filterable = Capability.filterable := by decide
      have hcolumn : backend.column name s =
          ⟨name, Capability.filterable, some ⟨s, Link.enter ⟨backend, catalog⟩ name⟩⟩ :=
        congrArg (Column.mk name · (some ⟨s, Link.enter ⟨backend, catalog⟩ name⟩)) hnone
      rw [hcolumn] at hc
      cases sortable <;> cases hc <;> exact ⟨_, rfl, .some ⟨hs, rfl⟩⟩

theorem name (h : e.Declares c) : c.name = e.name := by
  obtain ⟨r?, rfl, -⟩ := h.exists_relation?
  rfl

theorem capabilities (h : e.Declares c) : c.capabilities = e.capabilities := by
  obtain ⟨r?, rfl, -⟩ := h.exists_relation?
  rfl

theorem relation (h : e.Declares c) :
    Option.Rel (fun l r => l.Declares e.name r) e.link? c.relation? := by
  obtain ⟨r?, rfl, hr⟩ := h.exists_relation?
  exact hr

end Entry.Declares

theorem Entries.forall₂_of_declare {entries : List (Entry T)} {columns : List (Column T)}
    (h : Entries.declare entries = .ok columns) :
    List.Forall₂ Entry.Declares entries columns := by
  induction entries generalizing columns with
  | nil =>
      cases h
      exact .nil
  | cons e r ih =>
      obtain ⟨c, hc, h⟩ := Except.bind_eq_ok.1 h
      obtain ⟨rest, hrest, h⟩ := Except.bind_eq_ok.1 h
      cases h
      exact .cons hc (ih hrest)

/-! ## Looking up -/

namespace Backend

variable {b : Backend T}

/-- The operation of the name that the backend gives a schema. -/
def operation? (b : Backend T) (name : String) : Option (Operation T) :=
  b.operations.findRev? (·.name = name)

theorem nodup_operations (b : Backend T) : (b.operations.map (·.name)).Nodup := by
  have hnames : b.operations.map (·.name) = Comparison.all.map Comparison.symbol ++
      [Operation.trueName, Operation.falseName, Operation.andName, Operation.orName,
        Operation.notName, Operation.ascendingName, Operation.descendingName] := rfl
  rw [hnames]
  decide

/-- The names of the operations differ, so that each of them is found. -/
theorem operation?_of_mem {op : Operation T} (h : op ∈ b.operations) :
    b.operation? op.name = some op := by
  rw [operation?, List.findRev?_eq_find?_reverse]
  have hsome : (b.operations.reverse.find? (·.name = op.name)).isSome :=
    List.find?_isSome.2 ⟨op, List.mem_reverse.2 h, by simp⟩
  obtain ⟨found, hfound⟩ := Option.isSome_iff_exists.1 hsome
  have hmem := List.mem_reverse.1 (List.mem_of_find?_eq_some hfound)
  have hname : found.name = op.name := by simpa using List.find?_some hfound
  rw [hfound, List.inj_on_of_nodup_map b.nodup_operations hmem h hname]

end Backend

namespace Catalog

variable {k : Catalog T} {s : Schema T}

theorem exists_build_of_declare (h : k.declare = .ok s) :
    ∃ columns, List.Forall₂ Entry.Declares k.entries columns ∧
      Schema.build columns k.backend.operations = .ok s := by
  obtain ⟨backend, entries⟩ := k
  obtain ⟨columns, hcolumns, hs⟩ := Except.bind_eq_ok.1 h
  exact ⟨columns, Entries.forall₂_of_declare hcolumns, hs⟩

theorem rel_entry? (h : k.declare = .ok s) (name : String) (required : Flags) :
    Option.Rel Entry.Declares (k.entry? name required) (s.column? name required) := by
  obtain ⟨columns, hcolumns, hs⟩ := exists_build_of_declare h
  rw [Schema.column?_of_build hs, entry?, List.findRev?_eq_find?_reverse,
    List.findRev?_eq_find?_reverse]
  refine rel_filter (fun e c hc => by rw [hc.capabilities]) ?_
  exact rel_find? (fun e c hc => by rw [hc.name]) (List.rel_reverse hcolumns)

/-- A shape that the backend has no callback for is not found, and no other operation is. -/
theorem callback?_of_declare (h : k.declare = .ok s) (name : String) (slot : Slot) :
    s.callback? name slot = (k.backend.operation? name).bind (·.callback? slot) := by
  obtain ⟨columns, -, hs⟩ := exists_build_of_declare h
  rw [Schema.callback?, Schema.operation?_of_build hs, Backend.operation?]
  cases k.backend.operations.findRev? (·.name = name) with
  | none => rfl
  | some op =>
      rw [Option.filter_some]
      split
      · rfl
      · next hnot =>
          rw [Operation.supports_flag, Bool.not_eq_true, Option.isSome_eq_false_iff,
            Option.isNone_iff_eq_none] at hnot
          rw [Option.bind_none, Option.bind_some, hnot]

end Catalog

end Sift
