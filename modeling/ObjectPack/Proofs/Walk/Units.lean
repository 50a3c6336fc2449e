import ObjectPack.Proofs.Model.Units
import ObjectPack.Proofs.Walk.Tiled

/-!
# Data units of walked models

All data units that a walk meets belong to the one that it has begun with (`Walk.Rules.walk_unitsReached`):
whatever owns the row of one belongs to it.  The rows that represent the elements of empty collections have
no values, so no data unit is among them.
-/

namespace ObjectPack

open Outcome

namespace Row

variable {r : Row} {j : Nat}

/-- A row owns the rows of its span, unless it is that of a collection without elements. -/
theorem Covers.owns_or (h : r.Covers j) :
    r.Owns j ∨ (r.kind = .array ∨ r.kind = .dictionary) ∧ r.count = 0 := by
  obtain ⟨s, hs, hle, hlt⟩ := h
  have hstart := start_of_span? hs
  by_cases hempty : (r.kind = .array ∨ r.kind = .dictionary) ∧ r.count = 0
  · exact Or.inr hempty
  refine Or.inl ⟨s.start, hstart, hle, ?_⟩
  have howned : s.length = r.ownedCount := by
    unfold span? at hs
    rw [hstart] at hs
    unfold ownedCount
    split at hs
    case h_6 => cases hs
    all_goals
      rename_i hkind
      have hlength := congrArg Span.length (Option.some.inj hs)
      simp only [hkind, true_or, or_true, true_and, reduceCtorEq] at hempty hlength ⊢
      omega
  exact howned ▸ hlt

end Row

namespace Walk

variable {r : Rules} {m : Model} {use : Ty → Option Value → Bool} {texts : TextPool}
  {origins : List Origin} {o : Origin} {row : Row} {top i j : Nat}

/-- Whether a row stands for a data unit, or for a collection that has elements. -/
def Solid (row : Row) : Prop :=
  (∃ s, row.value = .dataUnit s) ∨ (row.kind = .array ∨ row.kind = .dictionary) ∧ row.count ≠ 0

/-- What stands for no value is neither a data unit nor a collection with elements. -/
theorem Shows.not_solid (h : Shows r use texts origins o row) (none : o.value = none) : ¬ Solid row := by
  rintro (⟨s, hvalue⟩ | ⟨hkind, hcount⟩)
  · cases h with
    | plain hplain => exact hplain.value_ne s hvalue
    | dataUnit _ value _ _ => cases none.symm.trans value
    | _ => cases hvalue
  · obtain ⟨start, hstart⟩ := h.start_of_collection hkind
    cases h with
    | plain hplain =>
      exact hplain.not_owns (j := start) ⟨start, hstart, Nat.le_refl _, by
        rcases hkind with hkind | hkind <;> rw [Row.ownedCount, hkind] <;> dsimp only <;> omega⟩
    | sequence _ _ _ _ _ | dictionary _ _ _ _ _ _ => cases none
    | noElements _ _ _ _ | noEntries _ _ _ _ => exact hcount rfl
    | _ => rcases hkind with hkind | hkind <;> cases hkind

/-- The rows that represent the elements of an empty collection stand for no values. -/
theorem Shows.representative (h : Shows r use texts origins o row)
    (kind : row.kind = .array ∨ row.kind = .dictionary) (empty : row.count = 0) (covers : row.Covers j) :
    ∃ o, origins[j]? = some o ∧ o.value = none := by
  obtain ⟨s, hs, hle, hlt⟩ := covers
  obtain ⟨start, hstart⟩ := h.start_of_collection kind
  cases h with
  | plain hplain =>
    cases hplain with
    | text _ _ => rcases kind with kind | kind <;> cases kind
    | _ => cases hstart
  | sequence _ _ nonempty _ _ | dictionary _ _ _ nonempty _ _ =>
    exact absurd (List.length_eq_zero_iff.mp empty) nonempty
  | noElements _ _ _ rows =>
    cases hs
    obtain rfl : j = _ := Nat.le_antisymm (Nat.le_of_lt_succ hlt) hle
    exact ⟨_, getElem?_of_prefix_drop (x := 0) rows rfl, rfl⟩
  | noEntries _ _ _ rows =>
    cases hs
    obtain ⟨x, rfl⟩ := Nat.exists_eq_add_of_le hle
    have hx : x = 0 ∨ x = 1 := by
      have hlt' : _ + x < _ + 2 := hlt
      omega
    rcases hx with rfl | rfl <;> exact ⟨_, getElem?_of_prefix_drop rows rfl, rfl⟩
  | _ => rcases kind with kind | kind <;> cases kind

/-- What owns rows is there, be it a data unit. -/
theorem Shows.present_of_owns (h : Shows r use texts origins o row) (owns : row.Owns j)
    (kind : row.kind ≠ .dataUnit) : row.value = .present := by
  cases h with
  | plain hplain => exact absurd owns hplain.not_owns
  | dataUnit _ _ _ _ => exact absurd rfl kind
  | _ => rfl

namespace Rules

/-- Data units and collections with elements belong to the data unit that a walk has begun with. -/
theorem reaches_of_solid {unit : DataUnit} (h : r.walk .empty unit = .ok (top, m)) (hrow : m.row j = .ok row)
    (solid : Solid row) : m.Reaches top j := by
  have hwhole := walk_whole (s := .full) h
  obtain ⟨origins, hpictures⟩ := exists_pictures h
  induction j using Nat.strong_induction_on generalizing row with
  | _ j ih =>
    by_cases htop : j = top
    · exact htop ▸ .top
    -- Every row but the top one stands in the range of an earlier row or is the root of a data unit.
    obtain ⟨i, owner, howner, hcovers⟩ := walk_covered h (Model.lt_size_of_row hrow) htop
    obtain ⟨o, ho, hshows⟩ := hpictures.shown howner
    rcases hcovers.owns_or with howns | ⟨hkind, hempty⟩
    · by_cases hunit : owner.kind = .dataUnit
      · -- The root of a data unit is an object.
        obtain ⟨start, hstart, hle, hlt⟩ := howns
        obtain ⟨hcount, object, hobject, hkind, hpresent⟩ := hwhole.roots i owner start howner hunit hstart
        rw [Row.ownedCount, hunit, hcount] at hlt
        obtain rfl : j = start := Nat.le_antisymm (Nat.le_of_lt_succ hlt) hle
        obtain rfl := Except.ok.inj (hobject.symm.trans hrow)
        exact hwhole.complete j ⟨object, hobject, hkind, hpresent⟩
      · have hpresent := hshows.present_of_owns howns hunit
        refine .owned ?_ howner hpresent howns
        by_cases hobject : owner.kind = .object
        · exact hwhole.complete i ⟨owner, howner, hobject, hpresent⟩
        · have hbefore := (walk_ordered (s := .full) h).below i owner j howner hunit howns
          refine ih i hbefore howner (Or.inr ?_)
          obtain ⟨start, -, hle, hlt⟩ := howns
          have hword := hshows.kind_ne_bitSet
          unfold Row.ownedCount at hlt
          cases hkind : owner.kind <;> simp only [hkind] at hlt hunit hobject hword
          case array => exact ⟨Or.inl rfl, by omega⟩
          case dictionary => exact ⟨Or.inr rfl, by omega⟩
          case object => exact absurd trivial hobject
          case dataUnit => exact absurd trivial hunit
          case bitSet => exact absurd rfl hword
          all_goals omega
    · obtain ⟨part, hpart, hnone⟩ := hshows.representative hkind hempty hcovers
      exact absurd solid ((hpictures.shows j row part hrow hpart).not_solid hnone)

/-- All data units of a walked model belong to the one that the walk has begun with. -/
theorem walk_unitsReached {unit : DataUnit} (h : r.walk .empty unit = .ok (top, m)) :
    m.UnitsReached top where
  reached _ _ s hrow hvalue := reaches_of_solid h hrow (Or.inl ⟨s, hvalue⟩)
  rooted _ _ _ hrow hvalue := by
    obtain ⟨origins, hpictures⟩ := exists_pictures h
    obtain ⟨_, -, hshows⟩ := hpictures.shown hrow
    exact hshows.start_of_dataUnit hvalue

end Rules

end Walk

end ObjectPack
