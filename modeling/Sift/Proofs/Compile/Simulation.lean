import Sift.Proofs.Compile.Lookup

/-!
# Two schemas side by side

Where one schema finds what is alike to what another one finds, compiling goes on both sides through
the same branches and ends alike. The outputs of the two schemas may differ in type. With `lax` the
second schema may find what the first one does not, and nothing is asked once the first side fails.
-/

namespace Sift

/-! ## Results and runs side by side -/

section

variable {ε α β γ δ : Type} {lax : Prop} {R : α → β → Prop} {S : γ → δ → Prop}

/-- Both are results that are related, or both are the same error. -/
inductive Agree (R : α → β → Prop) : Except ε α → Except ε β → Prop
  | ok {a : α} {b : β} : R a b → Agree R (.ok a) (.ok b)
  | error {e : ε} : Agree R (.error e) (.error e)

/-- What the first look-up finds, the second one does alike. -/
def Found (lax : Prop) (R : α → β → Prop) (a? : Option α) (b? : Option β) : Prop :=
  (∃ a b, a? = some a ∧ b? = some b ∧ R a b) ∨ a? = none ∧ (lax ∨ b? = none)

theorem Agree.refl (x : Except ε α) : Agree Eq x x := by
  cases x with
  | ok a => exact .ok rfl
  | error e => exact .error

theorem Found.refl {R : α → α → Prop} (hR : ∀ a, R a a) (a? : Option α) : Found lax R a? a? := by
  cases a? with
  | none => exact .inr ⟨rfl, .inr rfl⟩
  | some a => exact .inl ⟨a, a, rfl, rfl, hR a⟩

/-- The second run reports what the first one does, and their results agree. -/
inductive Run.Follows (lax : Prop) (R : α → β → Prop) : Run ε α → Run ε β → Prop
  | ok {events : List Event} {a : α} {b : β} : R a b →
      Run.Follows lax R ⟨events, .ok a⟩ ⟨events, .ok b⟩
  | error {events : List Event} {e : ε} :
      Run.Follows lax R ⟨events, .error e⟩ ⟨events, .error e⟩
  | free {events : List Event} {e : ε} {y : Run ε β} : lax →
      Run.Follows lax R ⟨events, .error e⟩ y

namespace Run.Follows

variable {x : Run ε α} {y : Run ε β}

theorem pure {a : α} {b : β} (h : R a b) :
    Follows lax R (Pure.pure a : Run ε α) (Pure.pure b) := .ok h

theorem fail (e : ε) : Follows lax R (Run.fail e) (Run.fail e) := .error

theorem reported (events : List Event) (h : Follows lax R x y) :
    Follows lax R ⟨events ++ x.events, x.result⟩ ⟨events ++ y.events, y.result⟩ := by
  cases h with
  | ok hab => exact .ok hab
  | error => exact .error
  | free hlax => exact .free hlax

theorem report_bind (e : Event) {f : Unit → Run ε α} {g : Unit → Run ε β}
    (h : Follows lax R (f ()) (g ())) : Follows lax R (report e >>= f) (report e >>= g) :=
  h.reported [e]

theorem bind {f : α → Run ε γ} {g : β → Run ε δ} (h : Follows lax R x y)
    (hfg : ∀ a b, R a b → Follows lax S (f a) (g b)) : Follows lax S (x >>= f) (y >>= g) := by
  cases h with
  | ok hab => exact (hfg _ _ hab).reported _
  | error => exact .error
  | free hlax => exact .free hlax

theorem ofAnswer (name : String) {x : Except String α} {y : Except String β} (h : Agree R x y) :
    Follows lax R (Run.ofAnswer name x) (Run.ofAnswer name y) := by
  cases h with
  | ok hab => exact .ok hab
  | error => exact .error

/-- A run that is followed strictly has the same events and an agreeing result. -/
theorem agree (h : Follows False R x y) : x.events = y.events ∧ Agree R x.result y.result := by
  cases h with
  | ok hab => exact ⟨rfl, .ok hab⟩
  | error => exact ⟨rfl, .error⟩
  | free hlax => exact hlax.elim

theorem eq {y : Run ε α} (h : Follows False Eq x y) : x = y := by
  cases h with
  | ok hab => rw [hab]
  | error => rfl
  | free hlax => exact hlax.elim

theorem result_eq_ok {a : α} (h : Follows lax R x y) (hx : x.result = .ok a) :
    ∃ b, y.result = .ok b ∧ R a b := by
  cases h with
  | ok hab =>
      cases hx
      exact ⟨_, rfl, hab⟩
  | error => cases hx
  | free _ => cases hx

end Run.Follows

end

/-! ## Schemas side by side -/

variable {T U : Type} {lax : Prop} {R : T → U → Prop} {required : Flags}

/-- Outputs are related one by one, and all else that callbacks are given is the same. -/
def Slot.Related (R : T → U → Prop) : (slot : Slot) → slot.Args T → slot.Args U → Prop
  | .combine, outs, outs' => List.Forall₂ R outs outs'
  | .int, x, y => x = y
  | .float, x, y => x = y
  | .boolean, x, y => x = y
  | .string, x, y => x = y
  | .fields, x, y => x = y
  | .field, x, y => x = y
  | .constant, x, y => x = y

def Callback.Alike (R : T → U → Prop) {slot : Slot} (f : Callback T slot) (g : Callback U slot) :
    Prop :=
  ∀ x y, slot.Related R x y → Agree R (f x) (g y)

theorem Slot.Related.eq {slot : Slot} {x y : slot.Args T} (h : slot.Related Eq x y) : x = y := by
  cases slot with
  | combine => exact List.forall₂_eq_eq_eq ▸ h
  | _ => exact h

theorem Callback.Alike.refl {slot : Slot} (f : Callback T slot) : f.Alike Eq f := by
  intro x y hxy
  rw [hxy.eq]
  exact .refl _

/-- Both columns lead to a schema of their own, or neither does. -/
def Column.SameKind (c : Column T) (c' : Column U) : Prop :=
  c.relation?.isSome = c'.relation?.isSome

/-- What is looked up in the second schema, for a use that asks for `required`, is alike to what is
found in the first one, and so it is behind the columns that may be used so. -/
inductive Schema.Follows (lax : Prop) (R : T → U → Prop) (required : Flags) :
    Schema T → Schema U → Prop
  | mk {s : Schema T} {s' : Schema U} :
      (∀ name slot,
        Found lax (Callback.Alike R) (s.callback? name slot) (s'.callback? name slot)) →
      (∀ name, Found lax Column.SameKind (s.column? name required) (s'.column? name required)) →
      (∀ name r r', s.relation? name required = some r → s'.relation? name required = some r' →
        ∀ inner inner', R inner inner' → Agree R (r.embed inner) (r'.embed inner')) →
      (∀ name r r', s.relation? name required = some r → s'.relation? name required = some r' →
        Schema.Follows lax R required r.schema r'.schema) →
      Schema.Follows lax R required s s'

namespace Schema.Follows

variable {s : Schema T} {s' : Schema U}

theorem call (h : s.Follows lax R required s') (name : String) (slot : Slot)
    {x : slot.Args T} {y : slot.Args U} (hxy : slot.Related R x y) :
    Run.Follows lax R (s.call name slot x) (s'.call name slot y) := by
  cases h with
  | mk hcallback _ _ _ =>
      rw [call_eq, call_eq]
      rcases hcallback name slot with ⟨f, g, hf, hg, hfg⟩ | ⟨hf, hlax | hg⟩
      · rw [hf, hg]
        exact .ofAnswer name (hfg x y hxy)
      · rw [hf]
        exact .free hlax
      · rw [hf, hg]
        exact .fail _

theorem constant (h : s.Follows lax R required s') (value : Bool) :
    Run.Follows lax R (s.constant value) (s'.constant value) :=
  h.call _ .constant rfl

theorem combine (h : s.Follows lax R required s') (name : String) {outs : List T} {outs' : List U}
    (houts : List.Forall₂ R outs outs') :
    Run.Follows lax R (s.combine name outs) (s'.combine name outs') :=
  h.call name .combine houts

theorem join (h : s.Follows lax R required s') (name : String) {before? : Option T}
    {before?' : Option U} {out : T} {out' : U} (hbefore : Option.Rel R before? before?')
    (hout : R out out') :
    Run.Follows lax R (s.join name before? out) (s'.join name before?' out') := by
  cases hbefore with
  | none => exact .pure hout
  | some hbefore => exact h.combine name (.cons hbefore (.cons hout .nil))

theorem orTrue (h : s.Follows lax R required s') {out? : Option T} {out?' : Option U}
    (hout : Option.Rel R out? out?') : Run.Follows lax R (s.orTrue out?) (s'.orTrue out?') := by
  cases hout with
  | none => exact h.constant true
  | some hout => exact .pure hout

/-- Relational columns of one name embed alike, and lead to schemas of which the second follows. -/
theorem related (h : s.Follows lax R required s') {name : String} {r : Relation T} {r' : Relation U}
    (hr : s.relation? name required = some r) (hr' : s'.relation? name required = some r') :
    r.schema.Follows lax R required r'.schema ∧
      ∀ inner inner', R inner inner' →
        Run.Follows lax R (r.enter name inner) (r'.enter name inner') := by
  cases h with
  | mk _ _ hembed hbehind =>
      refine ⟨hbehind name r r' hr hr', fun inner inner' hinner => ?_⟩
      rw [Relation.enter_eq, Relation.enter_eq]
      exact .ofAnswer name (hembed name r r' hr hr' inner inner' hinner)

end Schema.Follows

/-! ## Operands side by side -/

/-- The same literal, or the columns that the two schemas have under one name. -/
inductive Operand.Alike (s : Schema T) (s' : Schema U) : Operand T → Operand U → Prop
  | column {c : Column T} {c' : Column U} : c.name = c'.name →
      s.column? c.name Capability.filterable = some c →
      s'.column? c.name Capability.filterable = some c' → c.SameKind c' →
      Operand.Alike s s' (.column c) (.column c')
  | literal (v : Value) : Operand.Alike s s' (.literal v) (.literal v)

namespace Schema.Follows

variable {s : Schema T} {s' : Schema U}

theorem resolve_ident (h : s.Follows lax R Capability.filterable s') (name : String) :
    Run.Follows lax (Operand.Alike s s') (Operand.resolve s (.plain (.ident name) []))
      (Operand.resolve s' (.plain (.ident name) [])) := by
  cases h with
  | mk _ hcolumn _ _ =>
      rw [Operand.resolve_ident, Operand.resolve_ident]
      rcases hcolumn name with ⟨c, c', hc, hc', hkind⟩ | ⟨hc, hlax | hc'⟩
      · obtain rfl := (mem_of_column? hc).2.1
        rw [hc, hc']
        exact .pure (.column (mem_of_column? hc').2.1.symm hc hc' hkind)
      · rw [hc]
        exact .free hlax
      · rw [hc, hc']
        exact .error

theorem resolve (h : s.Follows lax R Capability.filterable s') (x : Comparable) :
    Run.Follows lax (Operand.Alike s s') (Operand.resolve s x) (Operand.resolve s' x) := by
  cases x with
  | call v path args => exact .fail _
  | plain v path =>
      cases path with
      | cons f path => exact .fail _
      | nil =>
          cases v with
          | wildcard => exact .fail _
          | ident name => exact h.resolve_ident name
          | int _ | float _ | string _ | boolean _ => exact .pure (.literal _)

theorem compareColumn (h : s.Follows lax R required s') (op : Comparison) (column : String)
    (v : Value) :
    Run.Follows lax R (Operand.compareColumn s op column v)
      (Operand.compareColumn s' op column v) := by
  cases v with
  | wildcard | ident _ => exact .fail _
  | int n => exact h.call _ .int rfl
  | float x => exact h.call _ .float rfl
  | boolean b => exact h.call _ .boolean rfl
  | string t => exact h.call _ .string rfl

theorem test (h : s.Follows lax R required s') {o : Operand T} {o' : Operand U}
    (ho : Operand.Alike s s' o o') :
    Run.Follows lax R (Operand.test s o) (Operand.test s' o') := by
  cases ho with
  | literal v => exact h.constant _
  | column hname _ _ _ =>
      rw [Operand.test, Operand.test, hname]
      exact h.call _ .boolean rfl

theorem compare (h : s.Follows lax R required s') (op : Comparison) {o₁ o₂ : Operand T}
    {o₁' o₂' : Operand U} (h₁ : Operand.Alike s s' o₁ o₁') (h₂ : Operand.Alike s s' o₂ o₂') :
    Run.Follows lax R (Operand.compare s op o₁ o₂) (Operand.compare s' op o₁' o₂') := by
  cases h₁ with
  | column hname₁ _ _ _ =>
      cases h₂ with
      | column hname₂ _ _ _ =>
          rw [Operand.compare, Operand.compare, hname₁, hname₂]
          exact h.call _ .fields rfl
      | literal v =>
          rw [Operand.compare, Operand.compare, hname₁]
          exact h.compareColumn op _ v
  | literal v =>
      cases h₂ with
      | column hname₂ _ _ _ =>
          rw [Operand.compare, Operand.compare, hname₂]
          exact h.compareColumn op _ v
      | literal w => exact .report_bind _ (h.constant _)

end Schema.Follows

/-! ## Filters side by side -/

/-- Alike operands are relational together. -/
theorem Operand.Alike.relation? {s : Schema T} {s' : Schema U} {o : Operand T} {o' : Operand U}
    (h : Operand.Alike s s' o o') :
    (o.relation? = none ∧ o'.relation? = none) ∨
      ∃ c c' r r', o.relation? = some (c, r) ∧ o'.relation? = some (c', r') ∧ c.name = c'.name ∧
        s.relation? c.name Capability.filterable = some r ∧
        s'.relation? c.name Capability.filterable = some r' := by
  cases h with
  | literal v => exact .inl ⟨rfl, rfl⟩
  | @column c c' hname hc hc' hkind =>
      have hr := Schema.relation?_of_column? hc
      have hr' := Schema.relation?_of_column? hc'
      unfold Column.SameKind at hkind
      simp only [Operand.relation?]
      cases hrel : c.relation? with
      | none =>
          rw [hrel, Option.isSome_none, eq_comm, Option.isSome_eq_false_iff,
            Option.isNone_iff_eq_none] at hkind
          exact .inl ⟨rfl, by rw [hkind]; rfl⟩
      | some r =>
          rw [hrel, Option.isSome_some, eq_comm, Option.isSome_iff_exists] at hkind
          obtain ⟨r', hrel'⟩ := hkind
          refine .inr ⟨c, c', r, r', rfl, by rw [hrel']; rfl, hname, ?_, ?_⟩
          · rw [hr, hrel]
          · rw [hr', hrel']

mutual

theorem Term.follows {s : Schema T} {s' : Schema U}
    (h : s.Follows lax R Capability.filterable s') : (t : Term) →
    Run.Follows lax R (t.compile s) (t.compile s')
  | .mk negated body => by
      rw [Term.compile, Term.compile]
      refine (Simple.follows h body).bind fun out out' hout => ?_
      cases negated with
      | true => exact h.combine _ (.cons hout .nil)
      | false => exact .pure hout

theorem Simple.follows {s : Schema T} {s' : Schema U}
    (h : s.Follows lax R Capability.filterable s') : (b : Simple) →
    Run.Follows lax R (b.compile s) (b.compile s')
  | .group f => by
      rw [Simple.compile, Simple.compile]
      exact (Filter.follows_after h f .none).bind fun _ _ => h.orTrue
  | .test x => by
      rw [Simple.compile, Simple.compile]
      exact (h.resolve x).bind fun _ _ => h.test
  | .compare x op (.group f) => by
      unfold Simple.compile
      refine (h.resolve x).bind fun o o' ho => ?_
      rcases ho.relation? with ⟨hrel, hrel'⟩ | ⟨c, c', r, r', hrel, hrel', hname, hr, hr'⟩
      · rw [hrel, hrel']
        cases op <;> exact .fail _
      · rw [hrel, hrel']
        cases op with
        | has =>
            obtain ⟨hbehind, henter⟩ := h.related hr hr'
            simp only [← hname]
            refine .report_bind _ ((Filter.follows_after hbehind f .none).bind fun _ _ hout => ?_)
            exact (hbehind.orTrue hout).bind henter
        | _ => exact .fail _
  | .compare x op (.comparable y) => by
      rw [Simple.compile, Simple.compile]
      refine (h.resolve x).bind fun o o' ho => ?_
      rcases ho.relation? with ⟨hrel, hrel'⟩ | ⟨_, _, _, _, hrel, hrel', -⟩
      · rw [hrel, hrel']
        exact (h.resolve y).bind fun _ _ => h.compare op ho
      · rw [hrel, hrel']
        exact .fail _

theorem Clause.follows_after {s : Schema T} {s' : Schema U}
    (h : s.Follows lax R Capability.filterable s') : (c : List Term) →
    {before? : Option T} → {before?' : Option U} → Option.Rel R before? before?' →
    Run.Follows lax (Option.Rel R) (Clause.compileAfter s before? c)
      (Clause.compileAfter s' before?' c)
  | [], _, _, hbefore => .pure hbefore
  | term :: r, _, _, hbefore => by
      rw [Clause.compileAfter, Clause.compileAfter]
      refine (Term.follows h term).bind fun out out' hout => ?_
      refine (h.join _ hbefore hout).bind fun joined joined' hjoined => ?_
      exact Clause.follows_after h r (.some hjoined)

theorem Filter.follows_after {s : Schema T} {s' : Schema U}
    (h : s.Follows lax R Capability.filterable s') : (f : List (List Term)) →
    {before? : Option T} → {before?' : Option U} → Option.Rel R before? before?' →
    Run.Follows lax (Option.Rel R) (Filter.compileAfter s before? f)
      (Filter.compileAfter s' before?' f)
  | [], _, _, hbefore => .pure hbefore
  | clause :: r, _, _, hbefore => by
      rw [Filter.compileAfter, Filter.compileAfter]
      refine (Clause.follows_after h clause .none).bind fun out? out?' hout => ?_
      cases hout with
      | none => exact Filter.follows_after h r hbefore
      | some hout =>
          refine (h.join _ hbefore hout).bind fun joined joined' hjoined => ?_
          exact Filter.follows_after h r (.some hjoined)

end

/-! ## Orders side by side -/

theorem Key.follows {s : Schema T} {s' : Schema U} (h : s.Follows lax R Capability.sortable s')
    (k : Key) : Run.Follows lax R (k.compile s) (k.compile s') := by
  obtain ⟨path, descending⟩ := k
  rcases path with _ | ⟨name, _ | ⟨_, _⟩⟩
  · exact .fail _
  · cases h with
    | mk hcallback hcolumn _ _ =>
        rw [compile_eq, compile_eq]
        rcases hcolumn name with ⟨c, c', hc, hc', -⟩ | ⟨hc, hlax | hc'⟩
        · rw [hc, hc']
          rcases hcallback (direction ⟨[name], descending⟩) .field with
            ⟨f, g, hf, hg, hfg⟩ | ⟨hf, hlax | hg⟩
          · simp only [hf, hg]
            exact .report_bind _ (.ofAnswer _ (hfg name name rfl))
          · simp only [hf]
            exact .free hlax
          · simp only [hf, hg]
            exact .fail _
        · rw [hc]
          exact .free hlax
        · rw [hc, hc']
          exact .fail _
  · exact .fail _

namespace Schema.Follows

variable {s : Schema T} {s' : Schema U}

theorem compileFilter (h : s.Follows lax R Capability.filterable s') (f : Filter) :
    Run.Follows lax R (s.compileFilter f) (s'.compileFilter f) :=
  (Filter.follows_after h f .none).bind fun _ _ => h.orTrue

theorem compileOrder (h : s.Follows lax R Capability.sortable s') (o : Order) :
    Run.Follows lax (List.Forall₂ R) (s.compileOrder o) (s'.compileOrder o) := by
  induction o with
  | nil => exact .pure .nil
  | cons k r ih =>
      refine (Key.follows h k).bind fun out out' hout => ?_
      exact ih.bind fun outs outs' houts => .pure (.cons hout houts)

end Schema.Follows

end Sift
