import ObjectPack.Proofs.Interface.Fields
import ObjectPack.Proofs.Model.Ranked
import ObjectPack.Proofs.Model.Total
import ObjectPack.Proofs.Walk.Reorder

/-!
# Portraits

What a row shows, but for where other rows stand, is decided by what it stands for (`Walk.Shows.portrait`), and so
is what a collection holds (`Walk.Shows.held`).  The order in which fields become rows has no part in it.
-/

namespace ObjectPack.Walk

open Outcome

namespace Rules

/-- What the row of a value holds that is treated in some way. -/
def payloadOf (declared : Ty) (value : Option Value) : Treatment → Payload
  | .bool =>
    match value with
    | some (.bool b) => .bool b
    | _ => .bool false
  | .scalar format =>
    match value with
    | some (.scalar s) => .scalar s
    | _ => .scalar (.zero format)
  | .string =>
    match value with
    | some (.text _) => .present
    | _ => .null
  | .enum =>
    match value, declared.strip with
    | some (.enum e v), _ => .enum e v
    | _, .enum e => .enum e e.defaultValue
    | _, _ => .null
  | .custom =>
    match value with
    | some (.custom c) => .struct c
    | _ => .null
  | .object =>
    match value with
    | some (.object _) => .present
    | _ => .null
  | .array | .dictionary => .present
  | .dataUnit =>
    match value with
    | some (.dataUnit u) => .dataUnit (.ofText u.signature)
    | _ => .null

/-- What the row of a value counts; objects count rows that depend on where others stand. -/
def countOf (r : Rules) (declared : Ty) (value : Option Value) : Treatment → Nat
  | .string =>
    match value with
    | some (.text text) => text.utf8ByteSize
    | _ => 0
  | .object => 0
  | .array =>
    match value with
    | some (.sequence items) => (items.filter fun item => r.usable (elementType declared) (some item)).length
    | _ => 0
  | .dictionary =>
    match value with
    | some (.dictionary entries) => (entries.filter fun entry => r.usable (entryTypes declared).1 (some entry.1) &&
        r.usable (entryTypes declared).2 (some entry.2)).length
    | _ => 0
  | .dataUnit =>
    match value with
    | some (.dataUnit _) => 1
    | _ => 0
  | _ => 1

/-- The row of what something is, but for where other rows stand. -/
def portrait (r : Rules) : Origin → Row
  | .unit u => ⟨.dataUnit, "", none, none, 1, .dataUnit (.ofText u.signature)⟩
  | .root _ => ⟨.object, "", none, none, 0, .present⟩
  | .part name declared value =>
    match r.treatmentOf declared value with
    | some t => ⟨treatedKind t, name, none, none, r.countOf declared value t, payloadOf declared value t⟩
    | none => ⟨.unknown, name, none, none, 0, .null⟩

/-- What a collection holds, be it only declared. -/
def held (r : Rules) : Origin → List Origin
  | .part _ declared value =>
    match r.treatmentOf declared value with
    | some .array =>
      match value with
      | some (.sequence (item :: rest)) =>
        ((item :: rest).filter fun item => r.usable (elementType declared) (some item)).map fun item =>
          .element (elementType declared) (some item)
      | _ => declared.strip.element?.toList.map fun element => .element element none
    | some .dictionary =>
      match value with
      | some (.dictionary (entry :: rest)) =>
        let kept := (entry :: rest).filter fun entry => r.usable (entryTypes declared).1 (some entry.1) &&
          r.usable (entryTypes declared).2 (some entry.2)
        kept.map (fun entry => .element (entryTypes declared).1 (some entry.1)) ++
          kept.map fun entry => .element (entryTypes declared).2 (some entry.2)
      | _ => declared.strip.entry?.toList.flatMap fun types => [.element types.1 none, .element types.2 none]
    | _ => []
  | _ => []

variable {r : Rules} {order : MemberOrder}

@[simp] theorem portrait_inOrder (r : Rules) (order : MemberOrder) (o : Origin) :
    (r.inOrder order).portrait o = r.portrait o := by
  cases o with
  | part name declared value => simp only [portrait, treatmentOf_inOrder, countOf, usable_inOrder]
  | _ => rfl

@[simp] theorem held_inOrder (r : Rules) (order : MemberOrder) (o : Origin) :
    (r.inOrder order).held o = r.held o := by
  cases o with
  | part name declared value => simp only [held, treatmentOf_inOrder, usable_inOrder]
  | _ => rfl

theorem portrait_eq {name : String} {declared : Ty} {value : Option Value} {t : Treatment}
    (treated : r.treatmentOf declared value = some t) : r.portrait (.part name declared value) =
      ⟨treatedKind t, name, none, none, r.countOf declared value t, payloadOf declared value t⟩ := by
  rw [portrait, treated]

end Rules

variable {r : Rules} {texts : TextPool} {origins : List Origin} {o : Origin} {x : Row}

theorem Plain.portrait (h : Plain r texts o x) : x.bare = r.portrait o := by
  cases h with
  | bool treated | text treated _ | enum treated | custom treated | noCustom treated =>
    rw [Rules.portrait_eq treated]
    rfl
  | noBool treated absent | noText treated absent | noObject treated absent | noUnit treated absent =>
    rw [Rules.portrait_eq treated]
    rcases eq_of_isAbsent absent with rfl | rfl <;> rfl
  | @scalar name _ s treated =>
    have hface : Row.face ⟨.ofFormat s.format, name, none, none, 1, .scalar s⟩ = _ :=
      Row.face_of_ne (Row.ofFormat_ne rfl).symm
    rw [Rules.portrait_eq treated, Row.bare, hface]
    rfl
  | @noScalar _ _ _ format treated absent =>
    rw [Rules.portrait_eq treated]
    rcases eq_of_isAbsent absent with rfl | rfl <;> cases format <;> rfl
  | noEnum treated absent declares =>
    rw [Rules.portrait_eq treated]
    rcases eq_of_isAbsent absent with rfl | rfl <;>
    · unfold Rules.payloadOf
      rw [declares]
      rfl

/-- A row shows what it stands for, but for where other rows stand. -/
theorem Shows.portrait (h : Shows r r.usable texts origins o x) : x.bare = r.portrait o := by
  -- A root shows its object directly; the other rows show a part and have the treatment of its value.
  cases h with
  | plain h => exact h.portrait
  | object treated value _ _ _ =>
    cases o with
    | unit u => cases value
    | root u => rfl
    | part name declared v =>
      obtain rfl : v = _ := value
      rw [Rules.portrait_eq treated]
      rfl
  | sequence treated used _ _ _ =>
    rw [Rules.portrait_eq treated, used]
    rfl
  | noElements treated empty _ _ =>
    rw [Rules.portrait_eq treated]
    rcases empty with rfl | absent
    · rfl
    · rcases eq_of_isAbsent absent with rfl | rfl <;> rfl
  | dictionary treated types used _ _ _ =>
    rw [Rules.portrait_eq treated, used]
    unfold Rules.countOf
    rw [types]
    rfl
  | noEntries treated empty _ _ =>
    rw [Rules.portrait_eq treated]
    rcases empty with rfl | absent
    · rfl
    · rcases eq_of_isAbsent absent with rfl | rfl <;> rfl
  | dataUnit treated value _ _ =>
    cases o with
    | unit u =>
      cases value
      rfl
    | root u => cases value
    | part name declared v =>
      obtain rfl : v = _ := value
      rw [Rules.portrait_eq treated]
      rfl

/-- A collection holds the rows of its elements, or of what it declares. -/
theorem Shows.held (h : Shows r r.usable texts origins o x) (kind : x.kind = .array ∨ x.kind = .dictionary) :
    ∃ start, x.start = some start ∧ r.held o <+: origins.drop start ∧ (r.held o).length = x.heldCount := by
  -- Only the four ways to show a collection are of these kinds; an empty one shows what it declares.
  cases h with
  | plain h =>
    cases h with
    | @scalar _ _ s _ => rcases kind with kind | kind <;> exact absurd kind.symm (Row.ofFormat_ne rfl)
    | @noScalar _ _ _ format _ _ => rcases kind with kind | kind <;> exact absurd kind.symm (Row.ofFormat_ne rfl)
    | _ => rcases kind with kind | kind <;> cases kind
  | object _ _ _ _ _ | dataUnit _ _ _ _ => rcases kind with kind | kind <;> cases kind
  | @sequence name declared items kept _ start treated used nonempty _ rows =>
    have hheld : r.held (.part name declared (some (.sequence items))) =
        kept.map fun item => .element (Rules.elementType declared) (some item) := by
      cases items with
      | nil => exact absurd used nonempty
      | cons item rest => simp only [Rules.held, treated, used]
    have hlength : 0 < kept.length := List.length_pos_of_ne_nil nonempty
    refine ⟨start, rfl, hheld ▸ rows, ?_⟩
    rw [hheld, List.length_map]
    show kept.length = max kept.length 1
    omega
  | @noElements name declared element value start treated empty declares rows =>
    have hheld : r.held (.part name declared value) = [.element element none] := by
      rcases empty with rfl | absent
      · simp only [Rules.held, treated, declares, Option.toList_some, List.map_singleton]
      · rcases eq_of_isAbsent absent with rfl | rfl <;>
          simp only [Rules.held, treated, declares, Option.toList_some, List.map_singleton]
    exact ⟨start, rfl, hheld ▸ rows, by rw [hheld]; rfl⟩
  | @dictionary name declared key val entries kept _ start treated types used nonempty _ rows =>
    have hheld : r.held (.part name declared (some (.dictionary entries))) =
        kept.map (fun entry => .element key (some entry.1)) ++ kept.map fun entry => .element val (some entry.2) := by
      cases entries with
      | nil => exact absurd used nonempty
      | cons entry rest => simp only [Rules.held, treated, types, used]
    have hlength : 0 < kept.length := List.length_pos_of_ne_nil nonempty
    refine ⟨start, rfl, hheld ▸ rows, ?_⟩
    rw [hheld, List.length_append, List.length_map, List.length_map]
    show kept.length + kept.length = 2 * max kept.length 1
    omega
  | @noEntries name declared key val value start treated empty declares rows =>
    have hheld : r.held (.part name declared value) = [.element key none, .element val none] := by
      rcases empty with rfl | absent
      · simp only [Rules.held, treated, declares, Option.toList_some, List.flatMap_singleton]
      · rcases eq_of_isAbsent absent with rfl | rfl <;>
          simp only [Rules.held, treated, declares, Option.toList_some, List.flatMap_singleton]
    exact ⟨start, rfl, hheld ▸ rows, by rw [hheld]; rfl⟩

end ObjectPack.Walk
