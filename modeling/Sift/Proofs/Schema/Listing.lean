import Mathlib.Data.List.Nodup
import Sift.Proofs.Schema.Registry

/-!
# Registered entries in the order of their names

Sorted by name, the last entries of all names make one list, in whatever order they are taken up.
-/

namespace Sift.Text

variable {α β γ : Type} {name : α → String} {entries l l' : List α} {a b : α} {n : String}

/-! ## The order of the names -/

theorem Ascending.eq_of_name_eq (h : Ascending name l) (ha : a ∈ l) (hb : b ∈ l)
    (hname : name a = name b) : a = b := by
  have hfind := h.find?_name hb
  rw [← hname, h.find?_name ha] at hfind
  exact Option.some.inj hfind

/-- There is one way to put entries of different names in the order of their names. -/
theorem Ascending.eq_of_perm (h : Ascending name l) (hperm : l'.Perm l)
    (hle : l'.Pairwise fun a b => name a ≤ name b) : l' = l := by
  refine hperm.eq_of_pairwise (fun a b ha hb hab hba => ?_) hle (h.imp Std.le_of_lt)
  exact h.eq_of_name_eq (hperm.mem_iff.1 ha) hb (String.le_antisymm hab hba)

theorem perm_of_mem_iff (h : (l.map name).Nodup) (h' : (l'.map name).Nodup)
    (hmem : ∀ a, a ∈ l' ↔ a ∈ l) : l'.Perm l :=
  (List.perm_ext_iff_of_nodup (.of_map _ h') (.of_map _ h)).2 hmem

theorem Ascending.eq_of_mem_iff (h : Ascending name l) (h' : Ascending name l')
    (hmem : ∀ a, a ∈ l' ↔ a ∈ l) : l' = l :=
  h.eq_of_perm (perm_of_mem_iff h.nodup h'.nodup hmem) (h'.imp Std.le_of_lt)

theorem pairwise_mergeSort_name (l : List α) :
    (l.mergeSort fun a b => name a ≤ name b).Pairwise fun a b => name a ≤ name b := by
  refine (List.pairwise_mergeSort ?trans ?total l).imp of_decide_eq_true
  case trans => simpa using fun a b c => String.le_trans
  case total => simpa using fun a b => String.le_total (name a) (name b)

theorem Ascending.mergeSort_eq (h : Ascending name l) (hperm : l'.Perm l) :
    (l'.mergeSort fun a b => name a ≤ name b) = l :=
  h.eq_of_perm ((List.mergeSort_perm ..).trans hperm) (pairwise_mergeSort_name l')

/-! ## What is found under the names -/

theorem mem_map_name_iff : n ∈ l.map name ↔ (l.find? (name · = n)).isSome = true := by
  simp

theorem Ascending.map_some (h : Ascending name l) (f : α → γ) :
    (l.map f).map some = (l.map name).map fun n => (l.find? (name · = n)).map f := by
  rw [List.map_map, List.map_map]
  refine List.map_congr_left fun a ha => ?_
  simp [h.find?_name ha]

/-- Where the like is found under every name, the like is listed. -/
theorem Ascending.map_eq_map {name' : β → String} {r : List β} {f : α → γ} {g : β → γ}
    (h : Ascending name l) (h' : Ascending name' r)
    (hfind : ∀ n, (l.find? (name · = n)).map f = (r.find? (name' · = n)).map g) :
    l.map f = r.map g := by
  have hmem (n : String) : n ∈ l.map name ↔ n ∈ r.map name' := by
    rw [mem_map_name_iff, mem_map_name_iff, ← Option.isSome_map, hfind, Option.isSome_map]
  have hascending : Ascending id (l.map name) := List.pairwise_map.2 h
  have hascending' : Ascending id (r.map name') := List.pairwise_map.2 h'
  have hnames : l.map name = r.map name' := hascending'.eq_of_mem_iff hascending hmem
  refine List.map_injective_iff.2 (fun _ _ => Option.some.inj) ?_
  rw [h.map_some, h'.map_some, hnames, funext hfind]

/-! ## The last entry of each name -/

/-- Entries that are in the order of their names already are all last ones. -/
theorem Ascending.isLast_iff (h : Ascending name l) : IsLast name l a ↔ a ∈ l := by
  refine ⟨IsLast.mem, fun ha => ?_⟩
  obtain ⟨before, after, rfl⟩ := List.append_of_mem ha
  refine ⟨before, after, rfl, fun b hb heq => ?_⟩
  have hlt := (List.pairwise_cons.1 (List.pairwise_append.1 h).2.1).1 b hb
  exact String.lt_irrefl _ (heq ▸ hlt)

/-- The last entry of each name is listed, once, and the names strictly increase. -/
structure EachOnce (name : α → String) (entries listed : List α) : Prop where
  ascending : Ascending name listed
  mem_iff : ∀ a, a ∈ listed ↔ IsLast name entries a
  count_name : ∀ n, (listed.map name).count n = if n ∈ entries.map name then 1 else 0

/-- A table with the last entry of each name lists its entries, in any order, and these are sorted
by name. -/
def Sorted (name : α → String) (entries listed : List α) : Prop :=
  ∃ values : List α, (values.map name).Nodup ∧ (∀ a, a ∈ values ↔ IsLast name entries a) ∧
    listed = values.mergeSort fun a b => name a ≤ name b

theorem Ascending.eachOnce (h : Ascending name l) (hmem : ∀ a, a ∈ l ↔ IsLast name entries a) :
    EachOnce name entries l where
  ascending := h
  mem_iff := hmem
  count_name := h.count_name hmem

theorem eachOnce_foldl (entries : List α) :
    EachOnce name entries (entries.foldl (fun table a => insertBy name a table) []) :=
  (ascending_foldl entries .nil).eachOnce fun _ => mem_foldl_insertBy_iff

theorem Ascending.eachOnce_self (h : Ascending name l) : EachOnce name l l :=
  h.eachOnce fun _ => h.isLast_iff.symm

theorem EachOnce.unique (h : EachOnce name entries l) (h' : EachOnce name entries l') : l' = l :=
  h.ascending.eq_of_mem_iff h'.ascending fun a => (h'.mem_iff a).trans (h.mem_iff a).symm

/-- Sorting brings all orders of the entries to one. -/
theorem sorted_iff_eachOnce : Sorted name entries l ↔ EachOnce name entries l := by
  constructor
  · rintro ⟨values, hnodup, hmem, rfl⟩
    have htable : EachOnce name entries _ := eachOnce_foldl entries
    have hperm := perm_of_mem_iff htable.ascending.nodup hnodup fun a =>
      (hmem a).trans (htable.mem_iff a).symm
    rwa [htable.ascending.mergeSort_eq hperm]
  · intro h
    exact ⟨l, h.ascending.nodup, h.mem_iff, (h.ascending.mergeSort_eq (.refl l)).symm⟩

end Sift.Text
