import ObjectPack.Proofs.Model.Passes
import ObjectPack.Proofs.Model.Solved
import ObjectPack.Proofs.Walk.Faithful
import ObjectPack.Proofs.Walk.Sturdy
import ObjectPack.Proofs.Walk.Whole

/-!
# Solved models of object graphs

Whatever object graph a model pictures, solving its layout keeps what it means (`Walk.Rules.solve_keeps`):
rows that are moved are tracked from the picture of the graph to the solved model, and data units still
own the roots that they stand for.

In the model of an object graph objects stand before their ranges, and ranges have no row in common
(`Walk.Rules.walk_layered`).  Nothing else is needed for the layout to settle: the fields of all objects are sorted
once, or found in order, and once it has been solved solving it again changes nothing (`Model.solve_settles`).
-/

namespace ObjectPack.Walk

open Outcome

/-- Whether the rows of data units still own the rows of root objects of their signatures. -/
def KeepsRoots (m m' : Model) (origins : List Origin) (place : Nat → Nat) : Prop :=
  ∀ i row s, m.row i = .ok row → row.value = .dataUnit s →
    ∃ o unit root first object, origins[i]? = some o ∧ o.value = some (.dataUnit unit) ∧
      s = .ofText unit.signature ∧ m'.row (place i) = .ok row ∧ row.start = some root ∧
      origins[root]? = some (.root first) ∧ Digest.ofText first.signature = s ∧
      m.IsObject root object ∧ object.typeName = some (Naming.typeName first.root.typeName) ∧
      m'.row root = .ok (m.foldedRow object)

variable {r : Rules} {m m' : Model} {origins : List Origin} {place : Nat → Nat} {passes : Nat}

/-- The row of a root object bears the type name of the root object. -/
theorem Pictures.typeName_root (h : Pictures r m origins) {root : Nat} {unit : DataUnit} {object : Row}
    (hroot : origins[root]? = some (.root unit)) (hobject : m.IsObject root object) :
    object.typeName = some (Naming.typeName unit.root.typeName) := by
  obtain ⟨hrow, hkind⟩ := hobject
  cases h.shows root object _ hrow hroot with
  | plain hplain => cases hplain
  | object _ value _ _ _ =>
    cases value
    rfl
  | dataUnit _ _ _ _ => cases hkind

/-- Data units keep the roots that the picture gives them. -/
theorem Pictures.keepsRoots (h : Pictures r m origins) (solved : m.Solved m' passes place) :
    KeepsRoots m m' origins place := by
  intro i row s hrow hvalue
  obtain ⟨o, ho, hshows⟩ := h.shown hrow
  cases hshows with
  | plain hplain => exact absurd hvalue (hplain.value_ne s)
  | dataUnit _ value same shared =>
    cases hvalue
    obtain ⟨hmoved, -, object, hobject, -, hroot⟩ := solved.root i _ _ hrow rfl rfl
    exact ⟨o, _, _, _, object, ho, value, rfl, hmoved, rfl, shared, same, hobject,
      h.typeName_root shared hobject, hroot⟩
  | _ => cases hvalue

namespace Rules

/-- Solving the layout of a model keeps what it means: it pictures an object graph, and every row of the
picture has its place in the solved model, the row that the data unit began with being where it was. -/
theorem solve_keeps {unit : DataUnit} {row passes : Nat} (walked : r.walk .empty unit = .ok (row, m))
    (solved : m.solve = .ok (m', passes)) : ∃ origins place, Pictures r m origins ∧
      m.Solved m' passes place ∧ KeepsRoots m m' origins place ∧ place row = row := by
  obtain ⟨origins, hpictures⟩ := exists_pictures walked
  obtain ⟨place, hplace⟩ := Model.solve_solved (walk_whole walked) (walk_ordered walked) solved
  refine ⟨origins, place, hpictures, hplace, hpictures.keepsRoots hplace, ?_⟩
  apply hplace.still
  intro k o ho
  exact (walk_whole walked).notTop k o ho.1 ho.kind_ne

/-- A data unit whose root has two objects that move when its fields are folded and sorted, with booleans
and fields of their own, an array of such an object and a handle of the data unit itself. -/
def movedObjects : DataUnit :=
  let inner (shown : Bool) : Object := ⟨"Inner", [⟨"m_shown", .bool, .bool shown⟩,
    ⟨"m_tag", .scalar .u8, .scalar (.u8 1)⟩, ⟨"m_wide", .scalar .u32, .scalar (.u32 2)⟩,
    ⟨"m_hidden", .bool, .bool (! shown)⟩]⟩
  ⟨"moved", ⟨"Root", [⟨"m_on", .bool, .bool true⟩, ⟨"m_small", .scalar .u8, .scalar (.u8 3)⟩,
    ⟨"m_second", .object "Inner", .object (inner true)⟩,
    ⟨"m_first", .object "Inner", .object (inner false)⟩,
    ⟨"m_list", .list (.object "Inner"), .sequence [.object (inner true)]⟩,
    ⟨"m_self", .dataUnit "Root", .dataUnit ⟨"moved", ⟨"Root", []⟩⟩⟩]⟩⟩

/-- The rows of both objects have moved to the front and changed places, and each has its booleans folded
and its fields sorted. -/
theorem solve_keeps_movedObjects : ∃ m m' origins place,
    walk ⟨.standard, .skip, .declaration, "m_"⟩ .empty movedObjects = .ok (0, m) ∧
    m.solve = .ok (m', 2) ∧
    (m.rows.toList.map (fun r => (r.kind, r.name, r.start, r.count))).take 8 =
      [(.dataUnit, "", some 1, 1), (.object, "", some 2, 6), (.bool, "on", none, 1),
        (.uint8, "small", none, 1), (.object, "second", some 8, 4), (.object, "first", some 12, 4),
        (.array, "list", some 16, 1), (.dataUnit, "self", some 1, 1)] ∧
    (m'.rows.toList.map (fun r => (r.kind, r.name, r.start, r.count))).take 11 =
      [(.dataUnit, "", some 1, 1), (.object, "", some 2, 6), (.object, "first", some 12, 3),
        (.object, "second", some 8, 3), (.array, "list", some 16, 1), (.bitSet, "on", some 21, 1),
        (.dataUnit, "self", some 1, 1), (.uint8, "small", none, 1), (.bitSet, "shown", some 22, 2),
        (.uint32, "wide", none, 1), (.uint8, "tag", none, 1)] ∧
    Pictures ⟨.standard, .skip, .declaration, "m_"⟩ m origins ∧ m.Solved m' 2 place ∧
    KeepsRoots m m' origins place ∧ place 0 = 0 := by
  have hcheck : (walk ⟨.standard, .skip, .declaration, "m_"⟩ .empty movedObjects).toOption.any (fun x =>
      x.2.solve.toOption.any fun y => x.1 = 0 && y.2 = 2 &&
        (x.2.rows.toList.map (fun r => (r.kind, r.name, r.start, r.count))).take 8 =
          [(.dataUnit, "", some 1, 1), (.object, "", some 2, 6), (.bool, "on", none, 1),
            (.uint8, "small", none, 1), (.object, "second", some 8, 4), (.object, "first", some 12, 4),
            (.array, "list", some 16, 1), (.dataUnit, "self", some 1, 1)] &&
        (y.1.rows.toList.map (fun r => (r.kind, r.name, r.start, r.count))).take 11 =
          [(.dataUnit, "", some 1, 1), (.object, "", some 2, 6), (.object, "first", some 12, 3),
            (.object, "second", some 8, 3), (.array, "list", some 16, 1), (.bitSet, "on", some 21, 1),
            (.dataUnit, "self", some 1, 1), (.uint8, "small", none, 1), (.bitSet, "shown", some 22, 2),
            (.uint32, "wide", none, 1), (.uint8, "tag", none, 1)]) = true := by
    decide +kernel
  simp only [Option.any_eq_true, Bool.and_eq_true, decide_eq_true_eq, toOption_eq_some,
    Prod.exists] at hcheck
  obtain ⟨row, m, hwalk, m', passes, hsolve, ⟨⟨rfl, rfl⟩, hbefore⟩, hafter⟩ := hcheck
  obtain ⟨origins, place, hpictures, hsolved, hroots, htop⟩ := solve_keeps hwalk hsolve
  exact ⟨m, m', origins, place, hwalk, hsolve, hbefore, hafter, hpictures, hsolved, hroots, htop⟩

end Rules

end ObjectPack.Walk

/-! ### Solving settles -/

namespace ObjectPack

open Outcome

namespace Model

variable {m : Model} {top : Nat} {allowed : CustomStruct → Prop}

/-- The objects of a model that can be solved are layered. -/
theorem Solvable.layered (h : m.Solvable allowed m.size top) (small : m.size < indexLimit) : m.Layered m.size where
  size := Nat.le_refl _
  objects _ _ object := lt_size_of_row object.1
  ranges i o object := by
    have hinside := (h.sturdy i o object.1).object object.2
    cases hstart : o.start with
    | none => exact ⟨.empty, by rw [Row.members, hstart], Nat.zero_le _⟩
    | some start =>
      have hstop := hinside start hstart
      exact ⟨_, Row.members_of_object object.2 hstart (by omega), hstop⟩
  below i o j object := h.ordered.below i o j object.1 object.kind_ne
  disjoint _ _ _ _ _ object object' owns owns' :=
    h.whole.eq_of_owns object.1 object'.1 owns owns' object.kind_ne
  enums i r hrow := (h.whole.fits i r hrow).exists_enum

end Model

/-- The model of an object graph is layered. -/
theorem Walk.Rules.walk_layered {r : Walk.Rules} {unit : DataUnit} {row : Nat} {m : Model}
    (walked : r.walk .empty unit = .ok (row, m)) (small : m.size < Model.indexLimit) : m.Layered m.size :=
  (Walk.Rules.walk_solvable walked).1.layered small

namespace Model

variable {m : Model}

/-- Solving the layout comes to its end after one pass over all objects, or after two if folding has left any fields
out of order.  Then no object has booleans, all fields are in order, and solving the layout again changes nothing. -/
theorem solve_settles (layered : m.Layered m.size) : ∃ m₁ m' passes,
    m.foldAll = .ok m₁ ∧ m.solve = .ok (m', passes) ∧ (passes = 1 ∨ passes = 2) ∧
    (passes = 1 ↔ ∀ i o, m₁.IsObject i o → m₁.InOrder o) ∧ m'.LaidOut ∧ m'.solve = .ok (m', 1) ∧
    ∀ limit, 2 ≤ limit → sortUntilStable limit m₁ 0 = .ok (m', passes) := by
  obtain ⟨m₁, hfold, h₁, hbools⟩ := layered.exists_foldAll
  obtain ⟨m', passes, h', hnone, hordered, hpasses, hsort⟩ := h₁.exists_sortUntilStable hbools
  have hall : (∀ i o, m₁.IsObject i o → (m₁.fields o).Pairwise Row.Before) ↔
      ∀ i o, m₁.IsObject i o → m₁.InOrder o :=
    forall₂_congr fun i o => forall_congr' fun ho => (h₁.inOrder_iff ho).symm
  refine ⟨m₁, m', passes, hfold, ?_, hpasses.imp And.left And.left, ?_, ?_, ?_, fun limit hlimit => hsort limit ?_⟩
  · have henough : passes ≤ m₁.size * m₁.size + 1 := by
      rcases hpasses with ⟨rfl, -⟩ | ⟨rfl, hmoves⟩
      · exact Nat.le_add_left _ _
      · -- Where something has moved there are rows.
        refine Nat.succ_le_succ (Nat.mul_pos ?_ ?_) <;>
        · by_contra hempty
          exact hmoves fun i o ho => absurd (lt_size_of_row ho.1) (by omega)
    exact bind_eq_ok.mpr ⟨m₁, hfold, hsort _ henough⟩
  · rw [← hall]
    rcases hpasses with ⟨rfl, hin⟩ | ⟨rfl, hout⟩
    · exact ⟨fun _ => hin, fun _ => rfl⟩
    · exact ⟨fun h => absurd h (by decide), fun h => absurd h hout⟩
  · exact
      { noBool := fun i o j r ho howns hrow => hnone i o ho r (mem_fields ho.2 howns hrow)
        inOrder := fun i o ho => (h'.inOrder_iff ho).mpr (hordered i o ho) }
  · exact bind_eq_ok.mpr ⟨m', h'.foldAll_eq hnone, sortUntilStable_of_stable (h'.sortAll_eq hordered)⟩
  · rcases hpasses with ⟨rfl, -⟩ | ⟨rfl, -⟩ <;> omega

open Walk in
/-- Folding and sorting moves both objects of the root, and sorting does so in the first of two passes. -/
theorem solve_settles_movedObjects : ∃ m m₁ m',
    Rules.walk ⟨.standard, .skip, .declaration, "m_"⟩ .empty Rules.movedObjects = .ok (0, m) ∧ m.Layered m.size ∧
    m.foldAll = .ok m₁ ∧ m.solve = .ok (m', 2) ∧ (¬ ∀ i o, m₁.IsObject i o → m₁.InOrder o) ∧ m'.LaidOut ∧
    m'.solve = .ok (m', 1) := by
  have hcheck : (Rules.walk ⟨.standard, .skip, .declaration, "m_"⟩ .empty Rules.movedObjects).toOption.any (fun x =>
      x.1 = 0 && x.2.size < indexLimit && x.2.solve.toOption.any fun y => y.2 = 2) = true := by
    decide +kernel
  simp only [Option.any_eq_true, Bool.and_eq_true, decide_eq_true_eq, toOption_eq_some, Prod.exists] at hcheck
  obtain ⟨row, m, hwalk, ⟨rfl, hsmall⟩, m', passes, hsolve, rfl⟩ := hcheck
  have hlayered := Rules.walk_layered hwalk hsmall
  obtain ⟨m₁, m₂, passes, hfold, hsolve', -, hone, hlaid, hagain, -⟩ := solve_settles hlayered
  obtain ⟨rfl, rfl⟩ := Prod.mk.inj (Except.ok.inj (hsolve.symm.trans hsolve'))
  exact ⟨m, m₁, m', hwalk, hlayered, hfold, hsolve, fun hin => absurd (hone.mpr hin) (by decide), hlaid, hagain⟩

end Model

end ObjectPack
