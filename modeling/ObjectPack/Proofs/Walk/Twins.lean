import ObjectPack.Proofs.Walk.Portrait

/-!
# Twins

Rows of two models are twins if they stand for the same (`Walk.Twins`).  Twins in pictures of one graph, be they
drawn in different orders of fields, show the same, and hold twins if they are collections.  If they are objects,
their fields are twins, but these may stand in another order; where the fields go by different names, and the
order leaves the booleans among them as they are (`Walk.Rules.TiesOnly`), solving the layout does away with that.
-/

namespace ObjectPack.Walk

open Outcome

namespace Rules

/-- Whether a field is treated as a boolean. -/
def isSwitch (r : Rules) (f : Field) : Bool := decide (r.treatmentOf f.ty (some f.value) = some .bool)

/-- Whether the order of the fields of an object decides nothing but ties: the fields go by different names, and
the booleans among them are declared in the order of their types. -/
structure TiesOnly (r : Rules) (object : Object) : Prop where
  names : (object.fields.map fun f => Naming.stripMember f.name r.memberLead).Nodup
  switches : (object.fields.filter r.isSwitch).Pairwise (·.ty.text ≤ ·.ty.text)

variable {r : Rules} {order : MemberOrder} {object : Object}

theorem TiesOnly.inOrder (h : r.TiesOnly object) (order : MemberOrder) : (r.inOrder order).TiesOnly object :=
  ⟨h.names, h.switches⟩

theorem orderFields_perm (r : Rules) (fields : List Field) : (r.orderFields fields).Perm fields := by
  have horder := r.orderFields_inOrder fields
  unfold InOrder at horder
  split at horder
  · rw [horder]
  · exact horder.1

/-- Booleans become rows in the order in which they are declared. -/
theorem TiesOnly.switches_orderFields (h : r.TiesOnly object) :
    (r.orderFields object.fields).filter r.isSwitch = object.fields.filter r.isSwitch := by
  have horder := r.orderFields_inOrder object.fields
  unfold InOrder at horder
  split at horder
  · rw [horder]
  · obtain ⟨-, hsorted, hsame⟩ := horder
    refine eq_of_filter (fun f => f.ty.text) (hsorted.sublist List.filter_sublist) h.switches fun text => ?_
    rw [List.filter_comm, hsame, List.filter_comm]

theorem kind_portrait_field (r : Rules) (f : Field) :
    decide ((r.portrait (.field r f)).kind = .bool) = r.isSwitch f := by
  unfold isSwitch
  show decide ((r.portrait (.part _ f.ty (some f.value))).kind = .bool) = _
  cases treated : r.treatmentOf f.ty (some f.value) with
  | none =>
    rw [portrait, treated]
    rfl
  | some t =>
    rw [portrait_eq treated]
    cases t with
    | scalar format => cases format <;> rfl
    | _ => rfl

end Rules

variable {r : Rules} {order : MemberOrder} {m m' : Model} {origins origins' : List Origin} {i j k start start' : Nat}
  {x y s s' : Row} {object : Object} {fields fields' : List Field}

/-! ### Objects -/

/-- What the rows of the fields of an object show is decided by the fields. -/
theorem ShowsObject.fields_bare (h : ShowsObject r origins x object fields start) (pictures : Pictures r m origins) :
    (m.fields x).map Row.bare = fields.map fun f => r.portrait (.field r f) := by
  have hlength := h.length_fields pictures
  refine List.ext_getElem (by rw [List.length_map, List.length_map, hlength]) fun k hk hk' => ?_
  rw [List.length_map] at hk hk'
  rw [List.getElem_map, List.getElem_map]
  have hf := List.getElem?_eq_getElem hk'
  have hrow := List.getElem?_eq_getElem hk
  rw [Model.getElem?_fields h.begins (h.count ▸ hk')] at hrow
  exact (pictures.shows _ _ _ (Model.row_eq_ok.mpr hrow) (h.stands hf)).portrait

/-- The rows of the fields of an object go by the names of the fields without their prefixes. -/
theorem ShowsObject.map_name (h : ShowsObject r origins x object fields start) (pictures : Pictures r m origins) :
    (m.fields x).map (·.name) = fields.map fun f => Naming.stripMember f.name r.memberLead := by
  have hbare := congrArg (List.map (·.name)) (h.fields_bare pictures)
  rw [List.map_map, List.map_map] at hbare
  refine Eq.trans (List.map_congr_left fun s _ => (Row.bare_name s).symm) (hbare.trans ?_)
  refine List.map_congr_left fun f _ => ?_
  show (r.portrait (.part _ f.ty (some f.value))).name = _
  unfold Rules.portrait
  dsimp only
  split <;> rfl

/-- What an object owns are the rows of its fields. -/
theorem ShowsObject.exists_field (h : ShowsObject r origins x object fields start) (pictures : Pictures r m origins)
    (kind : x.kind = .object) (owns : x.Owns i) (hs : m.row i = .ok s) : ∃ f ∈ object.fields,
      origins[i]? = some (.field r f) ∧ Shows r r.usable m.texts origins (.field r f) s := by
  obtain ⟨_, hstart, hle, hlt⟩ := owns
  obtain rfl := Option.some.inj (h.begins.symm.trans hstart)
  obtain ⟨k, rfl⟩ := Nat.exists_eq_add_of_le hle
  rw [Row.ownedCount_of_object kind, h.count] at hlt
  have hk : k < fields.length := by omega
  have hstands := h.stands (List.getElem?_eq_getElem hk)
  have hmem : fields[k] ∈ (r.orderFields object.fields).filter fun f => r.usable f.ty (some f.value) :=
    h.usable ▸ List.getElem_mem hk
  exact ⟨fields[k], (r.orderFields_perm object.fields).subset (List.mem_of_mem_filter hmem), hstands,
    pictures.shows _ _ _ hs hstands⟩

/-- Objects that are alike but for the order of their fields have the same fields when their models have been
solved. -/
theorem ShowsObject.solvedFields (h : ShowsObject r origins x object fields start) (pictures : Pictures r m origins)
    (h' : ShowsObject (r.inOrder order) origins' y object fields' start')
    (pictures' : Pictures (r.inOrder order) m' origins') (ties : r.TiesOnly object) {m₁ m₁' : Model}
    {top top' n n' : Nat} {place place' : Nat → Nat} (solved : m.Solved m₁ (n + 1) place) (whole : m.Whole top)
    (ordered : m.Ordered) (hx : m.IsObject i x) (solved' : m'.Solved m₁' (n' + 1) place') (whole' : m'.Whole top')
    (ordered' : m'.Ordered) (hy : m'.IsObject j y) :
    (m₁.fields (m.foldedRow x)).map Row.bare = (m₁'.fields (m'.foldedRow y)).map Row.bare := by
  have hfields := h.fields_bare pictures
  have hfields' : (m'.fields y).map Row.bare = fields'.map fun f => r.portrait (.field r f) := by
    rw [h'.fields_bare pictures']
    exact List.map_congr_left fun f _ => Rules.portrait_inOrder r order _
  have husable' : fields' = ((r.inOrder order).orderFields object.fields).filter fun f => r.usable f.ty (some f.value) := by
    rw [h'.usable, Rules.usable_inOrder]
  have hperm : fields.Perm fields' := by
    rw [h.usable, husable']
    exact ((r.orderFields_perm _).trans ((r.inOrder order).orderFields_perm _).symm).filter _
  have hbools : ∀ {m : Model} {x : Row} {fields : List Field},
      (m.fields x).map Row.bare = fields.map (fun f => r.portrait (.field r f)) →
      ((m.fields x).filter (·.kind = .bool)).map Row.bare =
        (fields.filter r.isSwitch).map fun f => r.portrait (.field r f) := by
    intro m x fields hfields
    rw [← Model.filter_bare (fun kind => decide (kind = .bool)), hfields, List.filter_map]
    refine congrArg (List.map _) (List.filter_congr fun f _ => ?_)
    exact r.kind_portrait_field f
  refine Model.solvedFields_eq solved whole ordered hx solved' whole' ordered' hy ?_ ?_ ?_ ?_
  · rw [hfields, hfields']
    exact hperm.map _
  · have hswitches : ((r.inOrder order).orderFields object.fields).filter r.isSwitch = object.fields.filter r.isSwitch :=
      (ties.inOrder order).switches_orderFields
    rw [hbools hfields, hbools hfields', h.usable, husable', List.filter_comm, ties.switches_orderFields,
      ← hswitches, List.filter_comm]
  · rw [h.map_name pictures, h.usable]
    exact ((List.filter_sublist.map _).nodup
      (((r.orderFields_perm object.fields).map _).nodup_iff.mpr ties.names))
  · intro s hs hword
    obtain ⟨k, howns, hrow⟩ := Model.exists_of_mem_fields hx.2 hs
    obtain ⟨f, -, -, hshows⟩ := h.exists_field pictures hx.2 howns hrow
    obtain ⟨t, -, hkind, -⟩ := hshows.treated
    rw [hword] at hkind
    cases t with
    | scalar format => exact Row.ofFormat_ne rfl hkind
    | _ => cases hkind

/-! ### Twins -/

/-- Whether rows of two models stand for the same. -/
def Twins (origins origins' : List Origin) (i j : Nat) : Prop := ∃ o, origins[i]? = some o ∧ origins'[j]? = some o

/-- Fields of one object that go by one name are twins. -/
theorem ShowsObject.twins (h : ShowsObject r origins x object fields start) (pictures : Pictures r m origins)
    (h' : ShowsObject (r.inOrder order) origins' y object fields' start')
    (pictures' : Pictures (r.inOrder order) m' origins') (ties : r.TiesOnly object)
    (kind : x.kind = .object) (kind' : y.kind = .object) (owns : x.Owns i) (owns' : y.Owns j)
    (hs : m.row i = .ok s) (hs' : m'.row j = .ok s') (name : s.name = s'.name) : Twins origins origins' i j := by
  obtain ⟨f, hf, hi, hshows⟩ := h.exists_field pictures kind owns hs
  obtain ⟨g, hg, hj, hshows'⟩ := h'.exists_field pictures' kind' owns' hs'
  obtain ⟨_, -, -, hname⟩ := hshows.treated
  obtain ⟨_, -, -, hname'⟩ := hshows'.treated
  obtain rfl : f = g := List.inj_on_of_nodup_map ties.names hf hg (hname.symm.trans (name.trans hname'))
  exact ⟨_, hi, hj⟩

namespace Twins

variable (pictures : Pictures r m origins) (pictures' : Pictures (r.inOrder order) m' origins')
include pictures pictures'

/-- Twins are there. -/
theorem exists_rows (h : Twins origins origins' i j) : ∃ x y, m.row i = .ok x ∧ m'.row j = .ok y := by
  obtain ⟨o, hi, hj⟩ := h
  obtain ⟨x, hx⟩ := Model.exists_row_of_lt (pictures.length ▸ (List.getElem?_eq_some_iff.mp hi).1)
  obtain ⟨y, hy⟩ := Model.exists_row_of_lt (pictures'.length ▸ (List.getElem?_eq_some_iff.mp hj).1)
  exact ⟨x, y, hx, hy⟩

/-- Twins show the same. -/
theorem bare (h : Twins origins origins' i j) (hx : m.row i = .ok x) (hy : m'.row j = .ok y) : x.bare = y.bare := by
  obtain ⟨o, hi, hj⟩ := h
  rw [(pictures.shows i x o hx hi).portrait, (pictures'.shows j y o hy hj).portrait, Rules.portrait_inOrder]

/-- Collections that are twins hold twins. -/
theorem held (h : Twins origins origins' i j) (hx : m.row i = .ok x) (hy : m'.row j = .ok y)
    (kind : x.kind = .array ∨ x.kind = .dictionary) : ∃ start start', x.start = some start ∧ y.start = some start' ∧
      y.heldCount = x.heldCount ∧ ∀ k < x.heldCount, Twins origins origins' (start + k) (start' + k) := by
  have hbare := h.bare pictures pictures' hx hy
  obtain ⟨hkind, -, -⟩ := Row.eq_of_bare hbare
  obtain ⟨o, hi, hj⟩ := h
  obtain ⟨start, hstart, hheld, hlength⟩ := (pictures.shows i x o hx hi).held kind
  obtain ⟨start', hstart', hheld', hlength'⟩ := (pictures'.shows j y o hy hj).held (hkind ▸ kind)
  rw [Rules.held_inOrder] at hheld' hlength'
  refine ⟨start, start', hstart, hstart', hlength'.symm.trans hlength, fun k hk => ?_⟩
  have hpart := List.getElem?_eq_getElem (hlength ▸ hk)
  exact ⟨_, getElem?_of_prefix_drop hheld hpart, getElem?_of_prefix_drop hheld' hpart⟩

end Twins

end ObjectPack.Walk
