import ObjectPack.Proofs.Compile
import ObjectPack.Proofs.Link.Layout
import ObjectPack.Proofs.Model.Solved
import ObjectPack.Proofs.Packing.Once
import ObjectPack.Proofs.Walk.Units

/-!
# Compiled data units

A compiled container holds every data unit that its object graph leads to, once, and the one that it is
compiled from first (`Options.pack_packedOnce`).  A data unit may be met in a field, in a collection or in
another data unit, and may lead back to one that it is part of; what counts is its signature.
-/

namespace ObjectPack

open Outcome Packing

/-- The row that a walk answers is that of the data unit. -/
theorem Walk.Rules.walk_top {r : Rules} {unit : DataUnit} {top : Nat} {m : Model}
    (h : r.walk .empty unit = .ok (top, m)) :
    ∃ row, m.row top = .ok row ∧ row.value = .dataUnit (.ofText unit.signature) := by
  obtain ⟨origins, hpictures, htop, -⟩ :=
    walk_pictures_within (fun _ => True) trivial (fun _ _ _ _ => trivial) h
  obtain ⟨row, hrow⟩ := Model.exists_row_of_lt (walk_whole (s := .full) h).bounded
  refine ⟨row, hrow, ?_⟩
  cases hpictures.shows top row _ hrow htop with
  | plain hplain => cases hplain
  | object _ value _ _ _ => cases value
  | dataUnit _ value _ _ =>
    cases value
    rfl

namespace Options

variable {o : Options} {classifier : Classifier} {registry : Registry} {unit : DataUnit}
  {m : Model} {root : Nat} {container : PackedContainer}

/-- All data units of a solved model belong to the one that it has been made from. -/
theorem solvedModel_unitsReached (h : o.solvedModel classifier unit = .ok (root, m)) :
    m.UnitsReached root ∧ ∃ row, m.row root = .ok row ∧ row.value = .dataUnit (.ofText unit.signature) := by
  obtain ⟨walked, passes, hwalk, hsolve⟩ := solvedModel_eq_ok.mp h
  have hwhole := Walk.Rules.walk_whole (s := .full) hwalk
  refine ⟨Model.solve_unitsReached hwhole (Walk.Rules.walk_unitsReached hwalk) hsolve, ?_⟩
  -- The row of the data unit has not moved.
  obtain ⟨place, hplace⟩ := Model.solve_solved hwhole (Walk.Rules.walk_ordered (s := .full) hwalk) hsolve
  obtain ⟨row, hrow, hvalue⟩ := Walk.Rules.walk_top hwalk
  have hstill : place root = root := hplace.still root fun k object hobject =>
    hwhole.notTop k object hobject.1 hobject.kind_ne
  have hmoved := hplace.row root row hrow
  rw [hstill] at hmoved
  exact ⟨_, hmoved, (walked.foldedRow_value row).trans hvalue⟩

/-- What a data unit is compiled to has every data unit of the model once, the one that is compiled first,
and each has the block of the root object of its rows for its root. -/
theorem pack_packedOnce (solved : o.solvedModel classifier unit = .ok (root, m))
    (packed : o.pack registry m root = .ok container) : ∃ d,
    packFrom m registry (.blank o.platform o.encoding m.supply) root = .ok d ∧ d.link = .ok container ∧
    container.units.map (·.signature) = d.units.map (·.signature) ∧
    (container.units.map (·.signature)).head? = some (.ofText unit.signature) ∧
    PackedOnce m registry root d := by
  obtain ⟨d, hdraft, hlink⟩ := exists_draft packed
  obtain ⟨hunits, row, hrow, hvalue⟩ := solvedModel_unitsReached solved
  have honce := packFrom_packedOnce (solvedModel_whole solved) hunits hdraft
  obtain ⟨images, hjoined, hcount, -⟩ := Draft.link_joined hlink
  have horder := hjoined.order hcount
  refine ⟨d, hdraft, hlink, horder, ?_, honce⟩
  obtain ⟨row', s, hrow', hvalue', hfirst⟩ := honce.first
  obtain rfl := Except.ok.inj (hrow.symm.trans hrow')
  cases hvalue.symm.trans hvalue'
  exact horder ▸ hfirst

/-- A data unit with a handle of itself, a list with another data unit twice, which leads back, and a
dictionary with a third one. -/
def circle : DataUnit :=
  let back : DataUnit := ⟨"circle", ⟨"Root", []⟩⟩
  let other : DataUnit := ⟨"other", ⟨"Other", [⟨"m_back", .dataUnit "Root", .dataUnit back⟩]⟩⟩
  ⟨"circle", ⟨"Root", [⟨"m_self", .dataUnit "Root", .dataUnit back⟩,
    ⟨"m_list", .list (.dataUnit "Other"), .sequence [.dataUnit other, .dataUnit other]⟩,
    ⟨"m_table", .dictionary (.scalar .u8) (.dataUnit "Third"),
      .dictionary [(.scalar (.u8 1), .dataUnit ⟨"third", ⟨"Third", []⟩⟩)]⟩]⟩⟩

/-- Six rows of data units make three data units. -/
theorem pack_packedOnce_circle : ∃ root m container d,
    solvedModel {} .standard circle = .ok (root, m) ∧ pack {} .empty m root = .ok container ∧
    m.rows.toList.countP (fun row => row.value.dataUnit?.isSome) = 6 ∧
    container.units.map (·.signature) = [.ofText "circle", .ofText "other", .ofText "third"] ∧
    packFrom m .empty (.blank .win64 .chained m.supply) root = .ok d ∧ d.link = .ok container ∧
    container.units.map (·.signature) = d.units.map (·.signature) ∧
    (container.units.map (·.signature)).head? = some (.ofText circle.signature) ∧
    PackedOnce m .empty root d := by
  have hcheck : (solvedModel {} .standard circle).toOption.any (fun x =>
      (pack {} .empty x.2 x.1).toOption.any fun container =>
        x.2.rows.toList.countP (fun row => row.value.dataUnit?.isSome) = 6 &&
        container.units.map (·.signature) = [.ofText "circle", .ofText "other", .ofText "third"]) = true := by
    decide +kernel
  simp only [Option.any_eq_true, Bool.and_eq_true, decide_eq_true_eq, toOption_eq_some,
    Prod.exists] at hcheck
  obtain ⟨root, m, hsolved, container, hpacked, hcount, hsignatures⟩ := hcheck
  obtain ⟨d, hdraft, hlink, horder, hfirst, honce⟩ := pack_packedOnce hsolved hpacked
  exact ⟨root, m, container, d, hsolved, hpacked, hcount, hsignatures, hdraft, hlink, horder, hfirst, honce⟩

end Options

end ObjectPack
