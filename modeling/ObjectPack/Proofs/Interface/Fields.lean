import Mathlib.Data.String.Basic
import ObjectPack.Proofs.Interface.Alike
import ObjectPack.Proofs.Sorting

/-!
# Fields that show alike

Two fields have the same place in a generated struct if they are declared alike and show alike
(`Walk.Rules.FieldsAlike`): what their values say of the struct is the same, whatever else they hold.  The rows
of such fields are alike (`Walk.Rules.FieldsAlike.rows`), and so are the rows of objects all of whose fields
are, since the order in which fields become rows goes by their declared types (`Walk.ShowsObject.alike`).
-/

namespace ObjectPack

theorem Payload.eq_of_enum? {p : Payload} {e : Enumeration} {v : Int64} (h : p.enum? = some (e, v)) :
    p = .enum e v := by
  cases p with
  | enum _ _ =>
    cases h
    rfl
  | _ => cases h

namespace Walk

variable {r : Rules} {m m' : Model} {origins : List Origin} {place : Nat → Nat} {passes i j : Nat}
  {row row' : Row} {texts : TextPool} {use : Ty → Option Value → Bool}

/-! ### Fields in order -/

section Order

variable {order : MemberOrder} {fields fields' ordered ordered' l l' : List Field} {f g : Field}

/-- Lists in the order of their keys are the same if they hold the same elements of every key in the same
order. -/
theorem eq_of_filter {α : Type} (key : α → String) {l l' : List α}
    (sorted : l.Pairwise fun a b => key a ≤ key b) (sorted' : l'.Pairwise fun a b => key a ≤ key b)
    (same : ∀ k, l.filter (key · = k) = l'.filter (key · = k)) : l = l' := by
  have hmem : ∀ {l l' : List α}, (∀ k, l.filter (key · = k) = l'.filter (key · = k)) →
      ∀ a ∈ l, a ∈ l' := by
    intro l l' same a ha
    have hfilter : a ∈ l.filter (key · = key a) := List.mem_filter.mpr ⟨ha, decide_eq_true rfl⟩
    rw [same] at hfilter
    exact (List.mem_filter.mp hfilter).1
  induction l generalizing l' with
  | nil =>
    cases l' with
    | nil => rfl
    | cons b t => cases hmem (fun k => (same k).symm) b List.mem_cons_self
  | cons a t ih =>
    cases l' with
    | nil => cases hmem same a List.mem_cons_self
    | cons b t' =>
      obtain ⟨hfirst, hrest⟩ := List.pairwise_cons.mp sorted
      obtain ⟨hfirst', hrest'⟩ := List.pairwise_cons.mp sorted'
      -- Both heads have the least key.
      have hkey : key a = key b := by
        apply le_antisymm
        · rcases List.mem_cons.mp (hmem (fun k => (same k).symm) b List.mem_cons_self) with rfl | hb
          · exact le_refl _
          · exact hfirst b hb
        · rcases List.mem_cons.mp (hmem same a List.mem_cons_self) with rfl | ha
          · exact le_refl _
          · exact hfirst' a ha
      have hhead := same (key a)
      rw [List.filter_cons_of_pos (by simp), List.filter_cons_of_pos (by simp [hkey])] at hhead
      obtain ⟨rfl, htail⟩ := List.cons.inj hhead
      rw [ih hrest hrest' fun k => ?_]
      by_cases hk : key a = k
      · exact hk ▸ htail
      · have hother := same k
        rwa [List.filter_cons_of_neg (by simp [hk]), List.filter_cons_of_neg (by simp [hk])] at hother

/-- Fields that stand in the order in which they become rows have been put into that order. -/
theorem InOrder.eq_orderFields (h : InOrder r.order fields ordered) : ordered = r.orderFields fields := by
  have hsorted := r.orderFields_inOrder fields
  unfold InOrder at h hsorted
  split at h
  · rename_i horder
    rw [horder] at hsorted
    exact h.trans hsorted.symm
  · rename_i horder
    rw [horder] at hsorted
    exact eq_of_filter (fun f => f.ty.text) h.2.1 hsorted.2.1 fun text =>
      (h.2.2 text).trans (hsorted.2.2 text).symm

end Order

/-! ### Fields that show alike -/

/-- The size and the alignment of a custom value. -/
def room? : Value → Option (Nat × Nat)
  | .custom c => some (c.size, c.alignment)
  | _ => none

/-- Whether a generated struct has the same place for two fields: they are declared alike, and both are left
out, or they are treated in the same way and have the same type and the same room. -/
structure Rules.FieldsAlike (r : Rules) (f g : Field) : Prop where
  name : f.name = g.name
  ty : f.ty = g.ty
  usable : r.usable f.ty (some f.value) = r.usable g.ty (some g.value)
  treated : r.usable f.ty (some f.value) = true →
    r.treatmentOf f.ty (some f.value) = r.treatmentOf g.ty (some g.value)
  type : r.usable f.ty (some f.value) = true → r.valueType f.ty f.value = r.valueType g.ty g.value
  room : r.usable f.ty (some f.value) = true → room? f.value = room? g.value

namespace Rules

instance (r : Rules) (f g : Field) : Decidable (r.FieldsAlike f g) :=
  decidable_of_iff (f.name = g.name ∧ f.ty = g.ty ∧
      r.usable f.ty (some f.value) = r.usable g.ty (some g.value) ∧
      (r.usable f.ty (some f.value) = true →
        r.treatmentOf f.ty (some f.value) = r.treatmentOf g.ty (some g.value) ∧
        r.valueType f.ty f.value = r.valueType g.ty g.value ∧ room? f.value = room? g.value))
    ⟨fun ⟨name, ty, usable, same⟩ =>
        ⟨name, ty, usable, fun h => (same h).1, fun h => (same h).2.1, fun h => (same h).2.2⟩,
      fun h => ⟨h.name, h.ty, h.usable, fun husable => ⟨h.treated husable, h.type husable, h.room husable⟩⟩⟩

theorem FieldsAlike.orderFields {fields fields' : List Field}
    (alike : List.Forall₂ r.FieldsAlike fields fields') :
    List.Forall₂ r.FieldsAlike (r.orderFields fields) (r.orderFields fields') := by
  unfold Rules.orderFields
  cases r.order with
  | declaration => exact alike
  | typeName =>
    refine Sorting.sortBy_related (fun a a' b b' ha hb => ?_) alike
    rw [ha.ty, hb.ty]

theorem FieldsAlike.filter {fields fields' : List Field}
    (alike : List.Forall₂ r.FieldsAlike fields fields') :
    List.Forall₂ r.FieldsAlike (fields.filter fun f => r.usable f.ty (some f.value))
      (fields'.filter fun f => r.usable f.ty (some f.value)) := by
  refine List.rel_filter (fun f g h => ?_) alike
  show r.usable f.ty (some f.value) = true ↔ r.usable g.ty (some g.value) = true
  rw [h.usable]

end Rules

/-- The kind of the row of a value. -/
def treatedKind : Treatment → Kind
  | .bool => .bool
  | .scalar format => .ofFormat format
  | .string => .string
  | .enum => .enum
  | .custom => .struct
  | .object => .object
  | .array => .array
  | .dictionary => .dictionary
  | .dataUnit => .dataUnit

variable {name : String} {declared : Ty} {value : Option Value} {v : Value} {f g : Field} {x y : Row}
  {texts : TextPool} {use : Ty → Option Value → Bool} {T : FieldType}

/-- A row has the name that it is given and the kind of what is done with its value. -/
theorem Shows.treated (h : Shows r use texts origins (.part name declared value) row) :
    ∃ t, r.treatmentOf declared value = some t ∧ row.kind = treatedKind t ∧ row.name = name := by
  cases h with
  | plain h =>
    cases h with
    | bool treated | noBool treated _ | scalar treated | noScalar treated _ | text treated _
    | noText treated _ | enum treated | noEnum treated _ _ | custom treated | noCustom treated
    | noObject treated _ | noUnit treated _ => exact ⟨_, treated, rfl, rfl⟩
  | object treated _ _ _ _ | sequence treated _ _ _ _ | noElements treated _ _ _
  | dictionary treated _ _ _ _ _ | noEntries treated _ _ _ | dataUnit treated _ _ _ =>
    exact ⟨_, treated, rfl, rfl⟩

/-- The row of a custom value holds the value. -/
theorem Shows.struct (h : Shows r use texts origins (.part name declared (some v)) row)
    (kind : row.kind = .struct) : ∃ c, v = .custom c ∧ row.value = .struct c := by
  cases h with
  | plain h =>
    cases h with
    | custom _ => exact ⟨_, rfl, rfl⟩
    | @scalar _ _ s _ => cases hformat : s.format <;> rw [hformat] at kind <;> cases kind
    | @noScalar _ _ _ format _ _ => cases format <;> cases kind
    | _ => cases kind
  | _ => cases kind

theorem exists_enum {n : Nat} (kind : x.kind = .enum) (type : m.rowType n x = some T) :
    ∃ e v, x.value = .enum e v ∧ T = .named e.underlying.spelling := by
  unfold Model.rowType at type
  rw [kind] at type
  obtain ⟨⟨e, v⟩, hvalue, rfl⟩ := Option.map_eq_some_iff.mp type
  exact ⟨e, v, Payload.eq_of_enum? hvalue, rfl⟩

/-- Integers with one spelling have the same room. -/
theorem underlying_eq {e e' : Enumeration} (h : e.underlying.spelling = e'.underlying.spelling) :
    e.underlying = e'.underlying := by
  unfold Enumeration.underlying at h ⊢
  have he := e.integral
  have he' := e'.integral
  cases hf : e.format <;> cases hf' : e'.format <;> rw [hf, hf'] at h <;> rw [hf] at he <;>
    rw [hf'] at he' <;> first | rfl | (revert h he he'; decide)

/-- The rows of fields that show alike are alike. -/
theorem Rules.FieldsAlike.rows (h : r.FieldsAlike f g) (usable : r.usable f.ty (some f.value) = true)
    (hx : Shows r use texts origins (.field r f) x) (hy : Shows r use texts origins (.field r g) y)
    (type : ∃ T, r.typeOf f.ty (some f.value) = some T ∧ m'.rowType m'.size x = some T)
    (type' : ∃ T, r.typeOf g.ty (some g.value) = some T ∧ m'.rowType m'.size y = some T) :
    x.Alike m' y := by
  obtain ⟨t, htreated, hkind, hname⟩ := hx.treated
  obtain ⟨t', htreated', hkind', hname'⟩ := hy.treated
  obtain ⟨T, hT, hxT⟩ := type
  obtain ⟨T', hT', hyT⟩ := type'
  obtain rfl : t = t' := Option.some.inj (htreated.symm.trans ((h.treated usable).trans htreated'))
  obtain rfl : T = T' := Option.some.inj (hT.symm.trans ((h.type usable).trans hT'))
  have hsame : x.kind = y.kind := hkind.trans hkind'.symm
  -- Only enumerations and custom values have a size that is not that of their kind.
  have hroom : (∃ n, x.alignment? = some n ∧ y.alignment? = some n) ∧
      ∃ n, x.size? = some n ∧ y.size? = some n := by
    by_cases henum : x.kind = .enum
    · obtain ⟨e, v, hvalue, hnamed⟩ := exists_enum henum hxT
      obtain ⟨e', v', hvalue', hnamed'⟩ := exists_enum (hsame ▸ henum) hyT
      have hunderlying := underlying_eq (FieldType.named.inj (hnamed.symm.trans hnamed'))
      simp only [Row.alignment?, Row.size?, ← hsame, henum, hvalue, hvalue', Payload.enum?, Option.map_some,
        hunderlying]
      exact ⟨⟨_, rfl, rfl⟩, _, rfl, rfl⟩
    · by_cases hstruct : x.kind = .struct
      · obtain ⟨c, hc, hvalue⟩ := hx.struct hstruct
        obtain ⟨c', hc', hvalue'⟩ := hy.struct (hsame ▸ hstruct)
        have hsize := h.room usable
        rw [hc, hc'] at hsize
        obtain ⟨hsize, halignment⟩ := Prod.mk.inj (Option.some.inj hsize)
        simp only [Row.alignment?, Row.size?, ← hsame, hstruct, hvalue, hvalue', Payload.struct?,
          Option.elim_some, hsize, halignment]
        exact ⟨⟨_, rfl, rfl⟩, _, rfl, rfl⟩
      · have hroom : ∀ z : Row, z.kind = x.kind →
            z.alignment? = some x.kind.alignment ∧ z.size? = some x.kind.byteSize := by
          intro z hz
          unfold Row.alignment? Row.size?
          rw [hz]
          cases hkind : x.kind with
          | enum => exact absurd hkind henum
          | struct => exact absurd hkind hstruct
          | _ => exact ⟨rfl, rfl⟩
        exact ⟨⟨_, (hroom x rfl).1, (hroom y hsame.symm).1⟩, _, (hroom x rfl).2, (hroom y hsame.symm).2⟩
  exact
    { kind := hsame
      name := by rw [hname, hname', h.name]
      alignment := hroom.1
      size := hroom.2
      type := ⟨T, hxT, hyT⟩ }

/-! ### Objects -/

/-- Whether a row is that of an object that is there, and the rows from `start` on stand for some fields of the
object. -/
structure ShowsObject (r : Rules) (origins : List Origin) (o : Row) (object : Object) (fields : List Field)
    (start : Nat) : Prop where
  typeName : o.typeName = some (Naming.typeName object.typeName)
  begins : o.start = some start
  count : o.count = fields.length
  /-- The fields are those that are usable, in the order in which they become rows. -/
  usable : fields = (r.orderFields object.fields).filter fun f => r.usable f.ty (some f.value)
  rows : fields.map (.field r) <+: origins.drop start

/-- The row of an object that is there shows the object. -/
theorem Shows.showsObject {origin : Origin} {o : Row} (h : Shows r r.usable texts origins origin o)
    (kind : o.kind = .object) (present : o.value.isNull = false) : ∃ value fields start,
      origin.value = some (.object value) ∧ ShowsObject r origins o value fields start := by
  cases h with
  | plain hplain =>
    cases hplain with
    | noObject _ _ => cases present
    | @scalar _ _ s _ => cases hformat : s.format <;> rw [hformat] at kind <;> cases kind
    | @noScalar _ _ _ format _ _ => cases format <;> cases kind
    | _ => cases kind
  | object _ value order used rows =>
    exact ⟨_, _, _, value, rfl, rfl, rfl, order.eq_orderFields ▸ used, rows⟩
  | _ => cases kind

theorem Pictures.showsObject (h : Pictures r m origins) {o : Row} (object : m.IsObject i o)
    (present : o.value.isNull = false) : ∃ origin ∈ origins, ∃ value fields start,
      origin.value = some (.object value) ∧ ShowsObject r origins o value fields start := by
  obtain ⟨hrow, hkind⟩ := object
  obtain ⟨origin, horigin, hshows⟩ := h.shown hrow
  exact ⟨origin, List.mem_of_getElem? horigin, hshows.showsObject hkind present⟩

variable {o o' : Row} {object object' : Object} {fields fields' : List Field} {start start' : Nat}

theorem ShowsObject.length_fields (h : ShowsObject r origins o object fields start)
    (pictures : Pictures r m origins) : (m.fields o).length = fields.length := by
  have hlength := h.rows.length_le
  rw [List.length_map, List.length_drop, pictures.length] at hlength
  have hsize : m.size = m.rows.toList.length := Array.length_toList.symm
  have hcount := h.count
  rw [Model.fields, h.begins, Option.elim_some, List.length_take, List.length_drop]
  omega

/-- The rows of the fields of an object stand for the fields. -/
theorem ShowsObject.stands (h : ShowsObject r origins o object fields start) {x : Nat} (hf : fields[x]? = some f) :
    origins[start + x]? = some (.field r f) :=
  getElem?_of_prefix_drop h.rows (by rw [List.getElem?_map, hf]; rfl)

/-- The rows of the fields of an object show the fields and have their types. -/
theorem ShowsObject.field (h : ShowsObject r origins o object fields start)
    (pictures : Pictures r m origins) (solved : m.Solved m' passes place) (reserved : m.Reserved)
    (small : m.size < Model.indexLimit) (grows : m.size ≤ m'.size) {x : Nat} (hf : fields[x]? = some f)
    (hrow : (m.fields o)[x]? = some row) : Shows r r.usable m.texts origins (.field r f) row ∧
      ∃ T, r.typeOf f.ty (some f.value) = some T ∧ m'.rowType m'.size row = some T := by
  have hx : x < o.count := h.count ▸ (List.getElem?_eq_some_iff.mp hf).1
  rw [Model.getElem?_fields h.begins hx] at hrow
  have ho := h.stands hf
  have hrow' := Model.row_eq_ok.mpr hrow
  exact ⟨pictures.shows _ _ _ hrow' ho, pictures.rowType solved reserved small hrow' ho (by omega)⟩

/-- Objects whose fields show alike have rows of fields that are alike. -/
theorem ShowsObject.alike (h : ShowsObject r origins o object fields start)
    (h' : ShowsObject r origins o' object' fields' start') (pictures : Pictures r m origins)
    (solved : m.Solved m' passes place) (reserved : m.Reserved) (small : m.size < Model.indexLimit)
    (grows : m.size ≤ m'.size) (alike : List.Forall₂ r.FieldsAlike object.fields object'.fields) :
    List.Forall₂ (Row.Alike m') (m.fields o) (m.fields o') := by
  have hfields : List.Forall₂ r.FieldsAlike fields fields' := by
    rw [h.usable, h'.usable]
    exact Rules.FieldsAlike.filter (Rules.FieldsAlike.orderFields alike)
  have hlength := h.length_fields pictures
  have hlength' := h'.length_fields pictures
  rw [List.forall₂_iff_get]
  refine ⟨by rw [hlength, hlength', hfields.length_eq], fun x hx hx' => ?_⟩
  have hf := List.getElem?_eq_getElem (hlength ▸ hx)
  have hg := List.getElem?_eq_getElem (hlength' ▸ hx')
  obtain ⟨hshown, htype⟩ :=
    h.field pictures solved reserved small grows hf (List.getElem?_eq_getElem hx)
  obtain ⟨hshown', htype'⟩ :=
    h'.field pictures solved reserved small grows hg (List.getElem?_eq_getElem hx')
  have husable : ∀ f ∈ fields, r.usable f.ty (some f.value) = true := by
    intro f hf
    rw [h.usable] at hf
    exact (List.mem_filter.mp hf).2
  exact (hfields.get (hlength ▸ hx) (hlength' ▸ hx')).rows (husable _ (List.mem_of_getElem? hf)) hshown hshown'
    htype htype'

end Walk

end ObjectPack
