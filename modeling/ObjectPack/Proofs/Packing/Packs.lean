import ObjectPack.Proofs.Model.Solved
import ObjectPack.Proofs.Model.Sturdy
import ObjectPack.Proofs.Packing.Row

/-!
# Which blocks are packed

Packing starts from the root object of a data unit, and packs what the rows of packed blocks refer to
(`Model.Packs`).  Rows that only say what an empty collection would hold are never reached, so no row that is
packed is that of a custom value that is missing (`Model.Solved.filled`).
-/

namespace ObjectPack.Model

/-- Whether row `i` is that of a data unit whose root object is row `root`. -/
def RootOf (m : Model) (i root : Nat) : Prop :=
  ∃ row s, m.row i = .ok row ∧ row.value = .dataUnit s ∧ row.start = some root

/-- Which blocks are packed for the data unit of a top row: that of its root object, those that rows of packed
blocks refer to, and those of the root objects of data units that are met in packed blocks. -/
inductive Packs (m : Model) (top : Nat) : Nat → Prop
  | root {root : Nat} (hroot : m.RootOf top root) : Packs m top root
  | part {i j : Nat} {owner row : Row} (packed : Packs m top i) (howner : m.row i = .ok owner)
      (owns : owner.Owns j) (hrow : m.row j = .ok row) (block : row.HasBlock) : Packs m top j
  | unit {i j root : Nat} {owner : Row} (packed : Packs m top i) (howner : m.row i = .ok owner)
      (owns : owner.Owns j) (hroot : m.RootOf j root) : Packs m top root

variable {m m' : Model} {top i j k : Nat} {owner row : Row} {place : Nat → Nat} {passes : Nat}

/-- Folding booleans changes nothing about which rows have blocks. -/
theorem hasBlock_foldedRow {r : Row} : (m.foldedRow r).HasBlock ↔ r.HasBlock := by
  by_cases hobject : r.kind = .object
  · unfold Row.HasBlock
    rw [foldedRow_value, foldedRow_kind, hobject]
    simp
  · rw [foldedRow_of_ne m hobject]

namespace Solved

/-- Whatever a row owns in a solved model, it has owned before, but for words of booleans. -/
theorem owned_row (h : m.Solved m' passes place) (wellFormed : m.WellFormed top)
    (howner : m.row k = .ok owner) (owns : (m.foldedRow owner).Owns j) (hrow : m'.row j = .ok row) :
    row.kind = .bitSet ∨
      ∃ k' former, owner.Owns k' ∧ m.row k' = .ok former ∧ place k' = j ∧ row = m.foldedRow former := by
  by_cases hobject : owner.kind = .object
  · rcases h.owned k owner j ⟨howner, hobject⟩ owns with ⟨k', former, howns, hformer, -, rfl⟩ | ⟨w, hw, hkind, -⟩
    · exact Or.inr ⟨k', former, howns, hformer, rfl, Except.ok.inj (hrow.symm.trans (h.row k' former hformer))⟩
    · rw [hrow] at hw
      cases hw
      exact Or.inl hkind
  · rw [foldedRow_of_ne m hobject] at owns
    obtain ⟨former, hformer⟩ := exists_row_of_lt (wellFormed.inside k owner howner j owns)
    have hstill : place j = j := h.still j fun _ _ ho =>
      wellFormed.not_owns_of_object howner hobject owns ho
    have hrow' := h.row j former hformer
    rw [hstill, hrow] at hrow'
    exact Or.inr ⟨j, former, owns, hformer, hstill, Except.ok.inj hrow'⟩

/-- Data units have their roots still, which are rows that have been there. -/
theorem exists_root (h : m.Solved m' passes place) (fits : ∀ i r, m.row i = .ok r → r.Fits) {root : Nat}
    (hrow : m.row k = .ok row) (hroot : m'.RootOf (place k) root) :
    place root = root ∧ ∃ object, m.row root = .ok object := by
  obtain ⟨unit, s, hunit, hvalue, hstart⟩ := hroot
  rw [h.row k row hrow] at hunit
  obtain rfl := Except.ok.inj hunit
  rw [foldedRow_value] at hvalue
  rw [foldedRow_start] at hstart
  have hkind := (fits k row hrow).kind_of_dataUnit hvalue
  obtain ⟨-, hplace, object, hobject, -⟩ := h.root k row root hrow hkind hstart
  exact ⟨hplace, object, hobject.1⟩

/-- Whatever is packed has been a row before the layout was solved. -/
theorem exists_packed (h : m.Solved m' passes place) (whole : m.Whole top)
    (fits : ∀ i r, m'.row i = .ok r → r.Fits) (still : place top = top) (packs : m'.Packs top i) :
    ∃ k former, m.row k = .ok former ∧ place k = i := by
  have hunit : ∀ {j root : Nat} {r : Row}, m'.RootOf j root → m'.row j = .ok r → r.kind = .dataUnit := by
    rintro j root r ⟨_, s, hrow, hvalue, -⟩ hr
    obtain rfl := Except.ok.inj (hr.symm.trans hrow)
    exact (fits j r hr).kind_of_dataUnit hvalue
  induction packs with
  | root hroot =>
    obtain ⟨unit, hrow⟩ := exists_row_of_lt whole.bounded
    obtain ⟨hplace, object, hobject⟩ := h.exists_root whole.fits hrow (still.symm ▸ hroot)
    exact ⟨_, object, hobject, hplace⟩
  | @part i j owner row _ howner owns hrow block ih =>
    obtain ⟨k, former, hformer, rfl⟩ := ih
    obtain rfl := Except.ok.inj (howner.symm.trans (h.row k former hformer))
    rcases h.owned_row whole.toWellFormed hformer owns hrow with hkind | ⟨k', part, -, hpart, hplace, -⟩
    · rcases block.2 with hblock | ⟨hblock | hblock, -⟩ <;> cases hkind.symm.trans hblock
    · exact ⟨k', part, hpart, hplace⟩
  | @unit i j root owner _ howner owns hroot ih =>
    obtain ⟨k, former, hformer, rfl⟩ := ih
    obtain rfl := Except.ok.inj (howner.symm.trans (h.row k former hformer))
    obtain ⟨row, hrow⟩ : ∃ row, m'.row j = .ok row := hroot.imp fun _ hrow => hrow.choose_spec.1
    rcases h.owned_row whole.toWellFormed hformer owns hrow with hkind | ⟨k', part, -, hpart, rfl, -⟩
    · cases hkind.symm.trans (hunit hroot hrow)
    · obtain ⟨hplace, object, hobject⟩ := h.exists_root whole.fits hpart hroot
      exact ⟨root, object, hobject, hplace⟩

/-- Rows of custom values that are packed have their values. -/
theorem filled (h : m.Solved m' passes place) (whole : m.Whole top) (filled : m.Filled)
    (fits : ∀ i r, m'.row i = .ok r → r.Fits) (still : place top = top) (packs : m'.Packs top i)
    (howner : m'.row i = .ok owner) (owns : owner.Owns j) (hrow : m'.row j = .ok row)
    (kind : row.kind = .struct) : row.value ≠ .null := by
  obtain ⟨k, former, hformer, rfl⟩ := h.exists_packed whole fits still packs
  obtain rfl := Except.ok.inj (howner.symm.trans (h.row k former hformer))
  rcases h.owned_row whole.toWellFormed hformer owns hrow with hword | ⟨k', part, howns, hpart, -, rfl⟩
  · cases hword.symm.trans kind
  · rw [foldedRow_kind] at kind
    rw [foldedRow_value]
    exact filled k k' former part hformer howns hpart kind

end Solved

end ObjectPack.Model
