import ObjectPack.Proofs.Interface.Homogeneous
import ObjectPack.Proofs.Packing.Packs
import ObjectPack.Proofs.Walk.Occurrence

/-!
# Names of custom values and enumerations

The row of a custom value goes by the name of its struct, and the row of an enumeration value by the name of its
enumeration (`Row.Named`).  Both come from the data unit that has been walked: a custom value occurs in it, and an
enumeration is that of a value in it, or the type of a field that it declares (`Value.HasEnum`).  So it is for all
rows that stand in blocks, before the layout is solved (`Walk.Rules.walk_named`) and after it
(`Model.Solved.named`); only the rows that tell what an empty collection would hold may lack a value.
-/

namespace ObjectPack

open Outcome

/-! ### Enumerations of a value -/

/-- Whether a type is an enumeration or is made of it. -/
def Ty.Mentions (e : Enumeration) : Ty → Prop
  | .enum e' => e = e'
  | .array ty | .list ty | .nullable ty => ty.Mentions e
  | .dictionary key val => key.Mentions e ∨ val.Mentions e
  | _ => False

namespace Ty

variable {e : Enumeration} {ty element key val : Ty}

theorem mentions_of_strip (h : ty.strip.Mentions e) : ty.Mentions e := by
  induction ty with
  | nullable inner ih => exact ih h
  | _ => exact h

theorem mentions_of_element? (declares : ty.strip.element? = some element) (h : element.Mentions e) :
    ty.Mentions e := by
  refine mentions_of_strip ?_
  cases hstrip : ty.strip <;> rw [hstrip] at declares <;> cases declares <;> exact h

theorem mentions_of_entry? (declares : ty.strip.entry? = some (key, val)) (h : key.Mentions e ∨ val.Mentions e) :
    ty.Mentions e := by
  refine mentions_of_strip ?_
  cases hstrip : ty.strip <;> rw [hstrip] at declares <;> cases declares
  exact h

theorem mentions_of_elementType (h : (Walk.Rules.elementType ty).Mentions e) : ty.Mentions e := by
  unfold Walk.Rules.elementType at h
  cases helement : ty.strip.element? with
  | none =>
    rw [helement] at h
    cases h
  | some element =>
    rw [helement] at h
    exact mentions_of_element? helement h

theorem mentions_of_entryTypes
    (h : (Walk.Rules.entryTypes ty).1.Mentions e ∨ (Walk.Rules.entryTypes ty).2.Mentions e) : ty.Mentions e := by
  unfold Walk.Rules.entryTypes at h
  cases hentry : ty.strip.entry? with
  | none =>
    rw [hentry] at h
    rcases h with h | h <;> cases h
  | some entry =>
    rw [hentry] at h
    exact mentions_of_entry? hentry h

end Ty

/-- Whether an enumeration is that of a value somewhere in a value, or in the declared type of a field there. -/
def Value.HasEnum (e : Enumeration) (whole : Value) : Prop :=
  (∃ v, (Value.enum e v).In whole) ∨
    ∃ (object : Object) (field : Field), (Value.object object).In whole ∧ field ∈ object.fields ∧ field.ty.Mentions e

/-! ### Rows that are named -/

/-- Whether a row goes by the name of what it holds, if that is a custom value or an enumeration value of an object
graph. -/
structure Row.Named (whole : Value) (r : Row) : Prop where
  custom : r.kind = .struct → ∃ c, r.value = .struct c ∧ r.typeName = some c.name ∧ whole.HasCustom c
  enum : r.kind = .enum → ∃ e v, r.value = .enum e v ∧ r.typeName = some e.name ∧ whole.HasEnum e

namespace Row

variable {whole : Value} {x x' : Row}

theorem Named.of_kind (custom : x.kind ≠ .struct) (enum : x.kind ≠ .enum) : x.Named whole :=
  ⟨fun h => absurd h custom, fun h => absurd h enum⟩

/-- A row that keeps its kind, its value and its type name is named still. -/
theorem Named.keep (h : x.Named whole) (keeps : x.Keeps x') : x'.Named whole where
  custom kind := by
    rw [keeps.kind] at kind
    rw [keeps.value, keeps.typeName (by rw [kind]; decide) (by rw [kind]; decide)]
    exact h.custom kind
  enum kind := by
    rw [keeps.kind] at kind
    rw [keeps.value, keeps.typeName (by rw [kind]; decide) (by rw [kind]; decide)]
    exact h.enum kind

end Row

/-- Whether the rows in the blocks of a model are named. -/
def Model.Named (m : Model) (whole : Value) : Prop :=
  ∀ i j owner row, m.OwnsBlock i → m.row i = .ok owner → owner.Owns j → m.row j = .ok row → row.Named whole

namespace Walk

variable {r : Rules} {unit : DataUnit} {o part : Origin} {x : Row} {texts : TextPool} {origins : List Origin}
  {use : Ty → Option Value → Bool}

/-- Whether a data unit has what something stands for, and the enumerations that it is declared with. -/
structure Origin.Within (unit : DataUnit) (o : Origin) : Prop where
  value : o.InUnit unit
  declared : ∀ name ty value, o = .part name ty value → ∀ e, ty.Mentions e → (Value.dataUnit unit).HasEnum e

theorem Origin.Within.of_part (h : o.Within unit) (hpart : o.Part part) : part.Within unit where
  value := h.value.part hpart
  declared := by
    rintro name ty value rfl e hmentions
    cases hpart with
    | field hvalue mem => exact .inr ⟨_, _, h.value _ hvalue, mem, hmentions⟩
    | item mem => exact h.declared _ _ _ rfl e (Ty.mentions_of_elementType hmentions)
    | noItem declares => exact h.declared _ _ _ rfl e (Ty.mentions_of_element? declares hmentions)
    | key mem => exact h.declared _ _ _ rfl e (Ty.mentions_of_entryTypes (.inl hmentions))
    | val mem => exact h.declared _ _ _ rfl e (Ty.mentions_of_entryTypes (.inr hmentions))
    | noKey declares => exact h.declared _ _ _ rfl e (Ty.mentions_of_entry? declares (.inl hmentions))
    | noVal declares => exact h.declared _ _ _ rfl e (Ty.mentions_of_entry? declares (.inr hmentions))

/-- A row that stands for a value is named. -/
theorem Shows.named (h : Shows r use texts origins o x) (within : o.Within unit) (there : o.value ≠ none) :
    x.Named (.dataUnit unit) := by
  cases h with
  | plain hplain =>
    cases hplain with
    | scalar _ | noScalar _ _ => exact .of_kind (Row.ofFormat_ne rfl).symm (Row.ofFormat_ne rfl).symm
    | enum _ => exact ⟨nofun, fun _ => ⟨_, _, rfl, rfl, .inl ⟨_, within.value _ rfl⟩⟩⟩
    | @noEnum _ declared _ e _ _ declares =>
      have hmentions : declared.Mentions e := Ty.mentions_of_strip (by rw [declares]; rfl)
      exact ⟨nofun, fun _ => ⟨_, _, rfl, rfl, within.declared _ _ _ rfl e hmentions⟩⟩
    | custom _ =>
      exact ⟨fun _ => ⟨_, rfl, rfl, (within.value _ rfl).hasCustom .self⟩, nofun⟩
    | noCustom _ => exact absurd rfl there
    | _ => exact .of_kind Kind.noConfusion Kind.noConfusion
  | _ => exact .of_kind Kind.noConfusion Kind.noConfusion

/-- The rows in the blocks of a walked model are named. -/
theorem Rules.walk_named {top : Nat} {m : Model} (h : r.walk .empty unit = .ok (top, m)) :
    m.Named (.dataUnit unit) := by
  have hstart : (Origin.unit unit).Within unit :=
    ⟨fun _ hv => Option.some.inj hv ▸ .self, fun _ _ _ hpart => by cases hpart⟩
  obtain ⟨origins, hpictures, -, hwithin⟩ :=
    walk_pictures_within (Origin.Within unit) hstart (fun _ _ => Origin.Within.of_part) h
  intro i j owner row _ howner owns hrow
  obtain ⟨_, -, hshows⟩ := hpictures.shown howner
  obtain ⟨part, v, hpart, hvalue, -⟩ := hshows.owned owns
  refine (hpictures.shows j row part hrow hpart).named (hwithin part (List.mem_of_getElem? hpart)) ?_
  rw [hvalue]
  exact Option.some_ne_none v

end Walk

namespace Model

variable {m m' : Model} {top i j passes : Nat} {owner row : Row} {place : Nat → Nat} {whole : Value}

/-- Whatever stands in a block of a solved model has stood in one before, but for words of booleans. -/
theorem Solved.exists_former (h : m.Solved m' passes place) (whole : m.Whole top) (ordered : m.Ordered)
    (block : m'.OwnsBlock i) (howner : m'.row i = .ok owner) (owns : owner.Owns j) (hrow : m'.row j = .ok row) :
    row.kind = .bitSet ∨ ∃ k l before former, m.OwnsBlock k ∧ m.row k = .ok before ∧ before.Owns l ∧
      m.row l = .ok former ∧ row = m.foldedRow former := by
  obtain ⟨_, howner', hkind⟩ := block
  obtain rfl := Except.ok.inj (howner.symm.trans howner')
  rcases hkind with hobject | hcollection
  · obtain ⟨k, before, hbefore, rfl⟩ := h.objects i owner ⟨howner, hobject⟩
    obtain rfl := Except.ok.inj (howner.symm.trans (h.row k before hbefore.1))
    refine (h.owned_row whole.toWellFormed hbefore.1 owns hrow).imp_right ?_
    rintro ⟨l, former, hl, hformer, -, rfl⟩
    exact ⟨k, l, before, former, ⟨before, hbefore.1, .inl hbefore.2⟩, hbefore.1, hl, hformer, rfl⟩
  · obtain ⟨k, hk⟩ := h.collections whole ordered i owner howner hcollection
    obtain ⟨former, hformer⟩ := exists_row_of_lt (whole.inside k owner hk j owns)
    have hmoved := h.row j former hformer
    rw [h.element k owner j hk hcollection owns] at hmoved
    exact .inr ⟨k, j, owner, former, ⟨owner, hk, .inr hcollection⟩, hk, owns, hformer,
      Except.ok.inj (hrow.symm.trans hmoved)⟩

/-- Where the rows in the blocks of a model are named, they are in the solved model. -/
theorem Solved.named (h : m.Solved m' passes place) (hwhole : m.Whole top) (ordered : m.Ordered)
    (named : m.Named whole) : m'.Named whole := by
  intro i j owner row block howner owns hrow
  rcases h.exists_former hwhole ordered block howner owns hrow with
    hkind | ⟨k, l, before, former, hblock, hbefore, hl, hformer, rfl⟩
  · exact .of_kind (by rw [hkind]; decide) (by rw [hkind]; decide)
  · exact (named k l before former hblock hbefore hl hformer).keep (m.keeps_foldedRow former)

end Model

end ObjectPack
