import ObjectPack.Interface.Source
import ObjectPack.Proofs.Interface.Type
import ObjectPack.Proofs.Walk.Sturdy

/-!
# Interfaces can be written

Writing an interface looks type names, ranges and definitions up.  Whatever is looked up is there in a model with
sturdy rows in which every field of an object has a type and tells what it needs (`Model.Declarable`), so the only
answer besides a text is that definitions lie on a cycle (`Model.Solvable.interface_keepsContracts`).  The solved
model of an object graph is such a model (`Walk.Pictures.declarable`): what a collection holds stands behind it and has
not moved, so looking into collections that are nested comes to an end.
-/

namespace ObjectPack

open Outcome Interface

/-! ### Order -/

namespace Interface

/-- Whatever is arranged has been there. -/
theorem mem_of_mem_arrange {steps : Nat} {ready : List String} {w : Waiting} {name : String}
    (h : name ∈ (arrange steps ready w).1) : name ∈ ready ∨ name ∈ w.map (·.1) := by
  have hnames : ∀ done, (w.map fun x : String × List String => (x.1, x.2.filter (· ≠ done))).map (·.1) =
      w.map (·.1) := fun done => by rw [List.map_map]; rfl
  induction steps generalizing ready w with
  | zero => exact Or.inl h
  | succ steps ih =>
    cases ready with
    | nil => cases h
    | cons first ready =>
      rcases List.mem_cons.mp h with rfl | h
      · exact Or.inl List.mem_cons_self
      · -- What is ready now and what goes on waiting has been waiting.
        have hwaits : ∀ next : Waiting, ∀ p : String × List String → Bool,
            name ∈ (next.filter p).map (·.1) → name ∈ next.map (·.1) := by
          intro next p hmem
          obtain ⟨x, hx, rfl⟩ := List.mem_map.mp hmem
          exact List.mem_map_of_mem (List.mem_filter.mp hx).1
        rcases ih h (fun done => by rw [List.map_map]; rfl) with hnow | hlater
        · rcases List.mem_append.mp hnow with hready | hnow
          · exact Or.inl (List.mem_cons_of_mem _ hready)
          · exact Or.inr (hnames first ▸ hwaits _ _ hnow)
        · exact Or.inr (hnames first ▸ hwaits _ _ hlater)

/-- Whatever is ordered has been there. -/
theorem mem_of_mem_orderNames {needs : Waiting} {order : List String} {name : String}
    (h : orderNames needs = .ok order) (hname : name ∈ order) : name ∈ needs.map (·.1) := by
  have hwaits : ∀ p : String × List String → Bool,
      name ∈ (needs.filter p).map (·.1) → name ∈ needs.map (·.1) := by
    intro p hmem
    obtain ⟨x, hx, rfl⟩ := List.mem_map.mp hmem
    exact List.mem_map_of_mem (List.mem_filter.mp hx).1
  unfold orderNames at h
  dsimp only at h
  split at h
  · rename_i arranged harranged
    cases h
    have hmem : name ∈ (arrange needs.length ((needs.filter (·.2.isEmpty)).map (·.1))
        (needs.filter (! ·.2.isEmpty))).1 := harranged ▸ hname
    exact (mem_of_mem_arrange hmem).elim (hwaits _) (hwaits _)
  · cases h

end Interface

namespace Model

variable {m m' : Model} {top i j n first passes : Nat} {row : Row} {allowed : CustomStruct → Prop}
  {place : Nat → Nat} {ds : Definitions}

/-! ### Names -/

/-- A row that has a kind with type names has a type name. -/
theorem Sturdy.exists_typeName (h : m.Sturdy allowed first) (hrow : m.row i = .ok row)
    (kind : row.kind = .enum ∨ row.kind = .struct ∨ row.kind = .object ∨ row.kind = .dataUnit) :
    ∃ name, m.requireTypeName i = .ok name := by
  obtain ⟨name, hname⟩ := (h i row hrow).typed kind
  exact ⟨name, (requireTypeName_eq_ok hrow).mpr hname⟩

/-- Whether the definitions by rows are those of objects. -/
def OfObjects (m : Model) (ds : Definitions) : Prop :=
  ∀ name i, (name, Definition.object i) ∈ ds → ∃ o, m.IsObject i o

theorem OfObjects.add (h : m.OfObjects ds) {name : String} {d : Definition}
    (object : ∀ i, d = .object i → ∃ o, m.IsObject i o) : m.OfObjects (ds.add name d) := by
  unfold Definitions.add
  split
  · exact h
  · intro name' i hmem
    rcases List.mem_append.mp hmem with hmem | hmem
    · exact h name' i hmem
    · cases List.mem_singleton.mp hmem
      exact object i rfl

/-- The definitions that a model calls for can be listed. -/
theorem Sturdy.exists_definitions (h : m.Sturdy allowed first) :
    ∃ ds, m.definitions = .ok ds ∧ m.OfObjects ds := by
  refine exists_foldlM (P := m.OfObjects) (fun ds i hi hds => ?_) fun _ _ hmem => absurd hmem List.not_mem_nil
  obtain ⟨row, hrow⟩ := exists_row_of_lt (List.mem_range.mp hi)
  unfold addDefinition
  simp only [hrow, bind_eq_ok, Except.ok.injEq, exists_eq_left']
  split
  · split
    · exact ⟨_, rfl, hds.add fun _ hcustom => Definition.noConfusion hcustom⟩
    · exact ⟨_, rfl, hds⟩
  · rename_i hkind
    obtain ⟨name, hname⟩ := h.exists_typeName hrow (Or.inr (Or.inr (Or.inl hkind)))
    split
    · exact ⟨_, rfl, hds⟩
    · refine ⟨ds.add name (.object i), bind_eq_ok.mpr ⟨name, hname, rfl⟩, hds.add fun k hk => ?_⟩
      cases hk
      exact ⟨row, hrow, hkind⟩
  · exact ⟨_, rfl, hds⟩

/-- The names to declare before all definitions can be listed. -/
theorem Sturdy.exists_forwardNames (h : m.Sturdy allowed first) (all : Bool) (ds : Definitions) :
    ∃ names, m.forwardNames all ds = .ok names := by
  suffices hstep : ∀ names, ∀ i ∈ List.range m.size, True → ∃ names', m.addForward all ds names i = .ok names' ∧
      True by
    obtain ⟨names, hnames, -⟩ := exists_foldlM hstep (b := []) trivial
    exact ⟨names, hnames⟩
  intro names i hi _
  obtain ⟨row, hrow⟩ := exists_row_of_lt (List.mem_range.mp hi)
  have htyped : row.kind = .object ∨ row.kind = .dataUnit → ∃ names',
      (if all then return addNew names (← m.requireTypeName i) else return names : Except Fault _) =
        .ok names' ∧ True := by
    intro hkind
    obtain ⟨name, hname⟩ := h.exists_typeName hrow (Or.inr (Or.inr hkind))
    rw [hname]
    cases all <;> exact ⟨_, rfl, trivial⟩
  unfold addForward
  simp only [hrow, bind_eq_ok, Except.ok.injEq, exists_eq_left']
  split
  · rename_i hkind
    exact htyped (Or.inl hkind)
  · rename_i hkind
    exact htyped (Or.inr hkind)
  · split <;> exact ⟨_, rfl, trivial⟩
  · split <;> exact ⟨_, rfl, trivial⟩
  · exact ⟨_, rfl, trivial⟩

/-! ### Declarations -/

/-- Whether every field of an object has a type and tells the names that it needs. -/
def Declarable (m : Model) : Prop :=
  ∀ i o j, m.IsObject i o → o.Owns j → (∃ type, m.fieldType j = .ok type) ∧
    ∀ forward, ∃ names, m.rowDependencies forward (m.size + 1) j = .ok names

/-- The rows that an object owns are there, and they are its range. -/
theorem Solvable.exists_fields {o : Row} (h : m.Solvable allowed first top) (small : first < indexLimit)
    (object : m.IsObject i o) : ∃ span, m.members i = .ok span ∧
      ∀ k < span.length, o.Owns (span.start + k) ∧ ∃ r, m.row (span.start + k) = .ok r := by
  obtain ⟨span, hspan⟩ := h.exists_members small object.1 (Or.inl object.2)
  refine ⟨span, ?_, fun k hk => ⟨(Row.owns_iff hspan _).mpr ⟨k, hk, rfl⟩, h.whole.exists_owned object.1 hspan hk⟩⟩
  exact (members_eq object.1).trans hspan

/-- A field has its getters. -/
theorem Sturdy.exists_getters (h : m.Sturdy allowed first) (small : m.size < indexLimit)
    (hrow : m.row j = .ok row) (type : ∃ type, m.fieldType j = .ok type) : ∃ getters, m.getters j = .ok getters := by
  obtain ⟨type, htype⟩ := type
  unfold getters
  simp only [hrow, bind_eq_ok, Except.ok.injEq, exists_eq_left']
  split
  · rename_i hkind
    obtain ⟨start, hstart, hinside⟩ := (h j row hrow).word hkind
    have hmembers : row.members = .ok ⟨start, row.count⟩ := by
      have howned : row.ownedCount = row.count := by rw [Row.ownedCount, hkind]
      rw [Row.members_of_start hstart (by rw [hkind]; decide), howned]
      exact spanFrom_of_lt (by omega)
    obtain ⟨bools, hbools⟩ := Span.exists_mapM (s := ⟨start, row.count⟩) (f := m.row) fun k hk =>
      exists_row_of_lt (show start + k < m.size by
        have : k < row.count := hk
        omega)
    exact ⟨_, bind_eq_ok.mpr ⟨_, hmembers, bind_eq_ok.mpr ⟨bools, hbools, rfl⟩⟩⟩
  · rename_i hkind
    obtain ⟨name, hname⟩ := h.exists_typeName hrow (Or.inl hkind)
    exact ⟨_, bind_eq_ok.mpr ⟨name, hname, rfl⟩⟩
  · rename_i hkind
    obtain ⟨name, hname⟩ := h.exists_typeName hrow (Or.inr (Or.inr (Or.inl hkind)))
    exact ⟨_, bind_eq_ok.mpr ⟨name, hname, rfl⟩⟩
  all_goals exact ⟨_, bind_eq_ok.mpr ⟨type, htype, rfl⟩⟩

/-- An object has a struct. -/
theorem Solvable.exists_structDeclaration {o : Row} (h : m.Solvable allowed first top)
    (small : m.size < indexLimit) (declarable : m.Declarable) (object : m.IsObject i o) (name : String) :
    ∃ declaration, m.structDeclaration name i = .ok declaration := by
  obtain ⟨span, hspan, hfields⟩ := h.exists_fields (Nat.lt_of_le_of_lt h.grown small) object
  have htype : ∀ k < span.length, ∃ type, m.fieldType (span.start + k) = .ok type := fun k hk =>
    (declarable i o _ object (hfields k hk).1).1
  obtain ⟨getters, hgetters⟩ := Span.exists_mapM (s := span) (f := m.getters) fun k hk => by
    obtain ⟨r, hr⟩ := (hfields k hk).2
    exact h.sturdy.exists_getters small hr (htype k hk)
  obtain ⟨fields, hall⟩ := Span.exists_mapM (s := span) (f := fun j => do
      let type ← m.fieldType j
      let row ← m.row j
      return (row.name, type)) fun k hk => by
    obtain ⟨type, hfield⟩ := htype k hk
    obtain ⟨r, hr⟩ := (hfields k hk).2
    exact ⟨(r.name, type), bind_eq_ok.mpr ⟨type, hfield, bind_eq_ok.mpr ⟨r, hr, rfl⟩⟩⟩
  exact ⟨⟨name, getters.flatten, fields⟩, bind_eq_ok.mpr ⟨span, hspan, bind_eq_ok.mpr
    ⟨getters, hgetters, bind_eq_ok.mpr ⟨fields, hall, rfl⟩⟩⟩⟩

/-- A definition tells the names that it needs. -/
theorem Solvable.exists_dependencies (h : m.Solvable allowed first top) (small : m.size < indexLimit)
    (declarable : m.Declarable) (forward : Bool) {d : Definition}
    (object : ∀ i, d = .object i → ∃ o, m.IsObject i o) : ∃ names, m.dependencies forward d = .ok names := by
  cases d with
  | custom c => exact ⟨_, rfl⟩
  | object i =>
    obtain ⟨o, ho⟩ := object i rfl
    obtain ⟨span, hspan, hfields⟩ := h.exists_fields (Nat.lt_of_le_of_lt h.grown small) ho
    obtain ⟨names, hnames⟩ := Span.exists_mapM (s := span)
      (f := m.rowDependencies forward (m.size + 1)) fun k hk =>
        (declarable i o _ ho (hfields k hk).1).2 forward
    exact ⟨names.flatten, bind_eq_ok.mpr ⟨span, hspan, bind_eq_ok.mpr ⟨names, hnames, rfl⟩⟩⟩

/-- Definitions have an order, or it is known which have none. -/
theorem Solvable.orderedDefinitions_keepsContracts (h : m.Solvable allowed first top)
    (small : m.size < indexLimit) (declarable : m.Declarable) (forward : Bool) (ofObjects : m.OfObjects ds) :
    KeepsContracts (m.orderedDefinitions forward ds) ∧ ∀ order, m.orderedDefinitions forward ds = .ok order →
      ∀ name ∈ order, name ∈ ds.map (·.1) := by
  unfold orderedDefinitions
  refine ⟨.bind (.mapM fun x hx => ?_) fun needs _ => keepsContracts_mapError _ _, fun order horder name hname => ?_⟩
  · have hdependencies := h.exists_dependencies small declarable forward (d := x.2) fun i hi =>
      ofObjects x.1 i (hi ▸ hx)
    exact .bind (.lift hdependencies) fun names _ => keepsContracts_ok _
  · obtain ⟨needs, hneeds, horder⟩ := bind_eq_ok.mp horder
    have hmem := mem_of_mem_orderNames (mapError_eq_ok.mp horder) hname
    rwa [map_of_mapM hneeds fun x _ y hy => ?_] at hmem
    obtain ⟨names, -, hy⟩ := bind_eq_ok.mp hy
    cases hy
    rfl

/-- Writing the interface of a model breaks no contract. -/
theorem Solvable.interface_keepsContracts (h : m.Solvable allowed first top) (small : m.size < indexLimit)
    (declarable : m.Declarable) (style : Style) : KeepsContracts (m.interface style) := by
  obtain ⟨ds, hds, hobjects⟩ := h.sturdy.exists_definitions
  obtain ⟨hordered, hnames⟩ :=
    h.orderedDefinitions_keepsContracts small declarable style.forward hobjects
  obtain ⟨names, hforward⟩ := h.sturdy.exists_forwardNames style.forward ds
  refine .bind (.lift ⟨ds, hds⟩) fun ds' hds' => ?_
  obtain rfl := Except.ok.inj (hds.symm.trans (lift_eq_ok.mp hds'))
  refine .bind hordered fun order horder => .bind (.lift ⟨names, hforward⟩) fun _ _ => ?_
  refine .bind (.lift (exists_mapM fun name hname => ?_)) fun _ _ => keepsContracts_ok _
  -- Whatever has been ordered is defined.
  obtain ⟨x, hx, rfl⟩ := List.mem_map.mp (hnames order horder name hname)
  obtain ⟨d, hd⟩ : ∃ d, ds.lookup x.1 = some d :=
    Option.isSome_iff_exists.mp (List.lookup_isSome_iff.mpr ⟨x, hx, BEq.rfl⟩)
  unfold definitionText
  simp only [hd, indexed, bind_eq_ok, Except.ok.injEq, exists_eq_left']
  cases d with
  | custom c => exact ⟨_, rfl⟩
  | object i =>
    obtain ⟨o, ho⟩ := hobjects x.1 i (mem_of_lookup hd)
    obtain ⟨declaration, hdeclaration⟩ := h.exists_structDeclaration small declarable ho x.1
    exact ⟨_, bind_eq_ok.mpr ⟨declaration, hdeclaration, rfl⟩⟩

/-! ### Names that rows need -/

/-- A row tells the names that it needs if its first elements do. -/
theorem Sturdy.exists_rowDependencies (h : m.Sturdy allowed first) (small : first < indexLimit)
    (forward : Bool) (hrow : m.row i = .ok row)
    (elements : ∀ j, row.Holds j → ∃ names, m.rowDependencies forward n j = .ok names) :
    ∃ names, m.rowDependencies forward (n + 1) i = .ok names := by
  have hpointer : row.kind = .object ∨ row.kind = .dataUnit → ∃ names,
      (if forward then return [] else return [← m.requireTypeName i] : Except Fault (List String)) =
        .ok names := by
    intro hkind
    obtain ⟨name, hname⟩ := h.exists_typeName hrow (Or.inr (Or.inr hkind))
    rw [hname]
    cases forward <;> exact ⟨_, rfl⟩
  -- A collection needs what its first elements need; any other row needs at most its own name.
  by_cases hcollection : row.kind = .array ∨ row.kind = .dictionary
  · obtain ⟨⟨first, second⟩, hfirsts, hholds⟩ := h.exists_firstElements small hrow hcollection
    have hnames : ∀ j, first = some j ∨ second = some j →
        ∃ names, m.rowDependencies forward n j = .ok names := fun j hj => elements j (hholds j hj).1
    unfold rowDependencies
    simp only [hrow, bind_eq_ok, Except.ok.injEq, exists_eq_left']
    rcases hcollection with hkind | hkind
    all_goals
      rw [hkind]
      simp only [hfirsts, bind_eq_ok, Except.ok.injEq, exists_eq_left']
      cases first with
      | none =>
        cases second with
        | none => exact ⟨_, rfl⟩
        | some j =>
          obtain ⟨names, hj⟩ := hnames j (Or.inr rfl)
          exact ⟨_, bind_eq_ok.mpr ⟨[], rfl, bind_eq_ok.mpr ⟨names, hj, rfl⟩⟩⟩
      | some k =>
        obtain ⟨names, hk⟩ := hnames k (Or.inl rfl)
        cases second with
        | none => exact ⟨_, bind_eq_ok.mpr ⟨names, hk, rfl⟩⟩
        | some j =>
          obtain ⟨names', hj⟩ := hnames j (Or.inr rfl)
          exact ⟨_, bind_eq_ok.mpr ⟨names, hk, bind_eq_ok.mpr ⟨names', hj, rfl⟩⟩⟩
  · unfold rowDependencies
    simp only [hrow, bind_eq_ok, Except.ok.injEq, exists_eq_left']
    split
    · rename_i hkind
      obtain ⟨name, hname⟩ := h.exists_typeName hrow (Or.inr (Or.inl hkind))
      exact ⟨_, bind_eq_ok.mpr ⟨name, hname, rfl⟩⟩
    · rename_i hkind
      exact hpointer (Or.inl hkind)
    · rename_i hkind
      exact hpointer (Or.inr hkind)
    · rename_i hkind
      exact absurd (Or.inl hkind) hcollection
    · rename_i hkind
      exact absurd (Or.inr hkind) hcollection
    · exact ⟨_, rfl⟩

/-- Every row of a solved model tells the names that it needs. -/
theorem Solved.exists_rowDependencies (h : m.Solved m' passes place) (reserved : m.Reserved)
    (sturdy : m'.Sturdy allowed first) (small : first < indexLimit) (forward : Bool)
    (hrow : m.row i = .ok row) (deep : m.size ≤ n + i) :
    ∃ names, m'.rowDependencies forward (n + 1) (place i) = .ok names := by
  induction n generalizing i row with
  | zero =>
    have hlt := lt_size_of_row hrow
    omega
  | succ n ih =>
    refine sturdy.exists_rowDependencies small forward (h.row i row hrow) fun j hholds => ?_
    have hholds' : row.Holds j := by
      by_cases hobject : row.kind = .object
      · refine absurd hholds (Row.not_holds_of_heldCount ?_ j)
        rw [Row.heldCount, foldedRow_kind, hobject]
      · rwa [foldedRow_of_ne m hobject] at hholds
    obtain ⟨hlt, hstill, s, hs⟩ := h.held_still reserved hrow hholds'
    have hnames := ih hs (by omega)
    rwa [hstill] at hnames

end Model

namespace Walk

open Model

variable {r : Rules} {m m' : Model} {origins : List Origin} {place : Nat → Nat} {passes i j first top : Nat}
  {o row : Row} {allowed : CustomStruct → Prop}

/-- Whatever an object owns stands for one of its fields. -/
theorem Pictures.exists_field (h : Pictures r m origins) (object : m.IsObject i o) (owns : o.Owns j) :
    ∃ field, origins[j]? = some (.field r field) := by
  obtain ⟨hrow, hkind⟩ := object
  obtain ⟨origin, -, hshows⟩ := h.shown hrow
  obtain ⟨part, v, hpart, -, ⟨-, field, rfl⟩ | ⟨hother, -⟩ | hother⟩ := hshows.owned owns
  · exact ⟨field, hpart⟩
  · rw [hkind] at hother
    rcases hother with hother | hother <;> cases hother
  · cases hkind.symm.trans hother

/-- Every field of an object in a solved model has a type and tells the names that it needs. -/
theorem Pictures.declarable (h : Pictures r m origins) (solved : m.Solved m' passes place)
    (reserved : m.Reserved) (small : m.size < indexLimit) (sturdy : m'.Sturdy allowed m.size) :
    m'.Declarable := by
  intro i o j object owns
  obtain ⟨k, former, hobject, rfl⟩ := solved.objects i o object
  obtain rfl := Except.ok.inj (object.1.symm.trans (solved.row k former hobject.1))
  have hgrows := solved.size_le
  rcases solved.owned k former j hobject owns with ⟨k', part, howns, hpart, -, rfl⟩ | ⟨word, hword, hkind, -⟩
  · obtain ⟨field, hfield⟩ := h.exists_field hobject howns
    obtain ⟨type, -, htype⟩ := h.fieldType solved reserved small hpart hfield
    exact ⟨⟨type, htype⟩, fun forward =>
      solved.exists_rowDependencies reserved sturdy small forward hpart (by omega)⟩
  · refine ⟨⟨.named word.kind.spelling, toOption_eq_some.mp ?_⟩, fun forward => ?_⟩
    · rw [Model.fieldType, fieldTypeWithin_eq hword, Model.rowType, hkind]
    · refine sturdy.exists_rowDependencies small forward hword fun l hholds => absurd hholds ?_
      exact Row.not_holds_of_heldCount (by rw [Row.heldCount, hkind]) l

end Walk

end ObjectPack
