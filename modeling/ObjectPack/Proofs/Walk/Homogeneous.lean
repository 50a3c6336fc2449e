import Mathlib.Data.List.Forall2
import ObjectPack.Proofs.Walk.Turn

/-!
# Homogeneous collections

The rows of a collection tell which of its elements are objects, and of which types (`Walk.Tells`).  So a
collection whose rows agree bears the name of a class just where its elements are objects of different
types (`Walk.checkHomogeneous_bears`).
-/

namespace ObjectPack.Walk

open Outcome Progress

/-- Whether a row tells of an object just where it is that of one. -/
structure Tells (row : Row) (v : Value) : Prop where
  object : ∀ o, v = .object o →
    row.kind = .object ∧ row.typeName = some (Naming.typeName o.typeName) ∧ row.value.isNull = false
  present : row.kind = .object → row.value.isNull = false → ∃ o, v = .object o

variable {r : Rules} {p : Progress} {label : String} {row : Row} {rows : List Row} {v : Value}
  {values : List Value} {o : Origin} {use : Ty → Option Value → Bool} {texts : TextPool} {origins : List Origin}

theorem Tells.of_ne (kind : row.kind ≠ .object) (value : ∀ o, v ≠ .object o) : Tells row v :=
  ⟨fun o ho => absurd ho (value o), fun hkind => absurd hkind kind⟩

theorem Tells.of_isNull (null : row.value.isNull = true) (value : ∀ o, v ≠ .object o) : Tells row v :=
  ⟨fun o ho => absurd ho (value o), fun _ hpresent => absurd (hpresent.symm.trans null) Bool.false_ne_true⟩

theorem isAbsent_ne_object (absent : isAbsent (some v) = true) (o : Object) : v ≠ .object o := by
  rintro rfl
  cases absent

theorem ofFormat_ne_object (format : Scalar.Format) : Kind.ofFormat format ≠ .object := by
  cases format <;> exact Kind.noConfusion

theorem Plain.tells {declared : Ty} (h : Plain r texts (.part name declared (some v)) row) :
    Tells row v := by
  cases h with
  | noBool _ absent => exact .of_ne Kind.noConfusion (isAbsent_ne_object absent)
  | noScalar _ absent => exact .of_ne (ofFormat_ne_object _) (isAbsent_ne_object absent)
  | noText _ absent => exact .of_isNull rfl (isAbsent_ne_object absent)
  | noEnum _ absent _ => exact .of_ne Kind.noConfusion (isAbsent_ne_object absent)
  | noObject _ absent => exact .of_isNull rfl (isAbsent_ne_object absent)
  | noUnit _ absent => exact .of_isNull rfl (isAbsent_ne_object absent)
  | scalar _ => exact .of_ne (ofFormat_ne_object _) (fun _ => Value.noConfusion)
  | _ => exact .of_ne Kind.noConfusion (fun _ => Value.noConfusion)

theorem Tells.of_object {object : Object} (value : some v = some (.object object))
    (kind : row.kind = .object) (typeName : row.typeName = some (Naming.typeName object.typeName))
    (present : row.value.isNull = false) : Tells row v := by
  obtain rfl := Option.some.inj value
  refine ⟨fun o ho => ?_, fun _ _ => ⟨object, rfl⟩⟩
  cases ho
  exact ⟨kind, typeName, present⟩

theorem Shows.tells {declared : Ty} (h : Shows r use texts origins (.element declared (some v)) row) :
    Tells row v := by
  unfold Origin.element at h
  cases h with
  | plain h => exact h.tells
  | object _ value _ _ _ => exact .of_object value rfl rfl rfl
  | noElements _ empty _ _ =>
    refine .of_ne Kind.noConfusion fun o ho => ?_
    subst ho
    rcases empty with hempty | habsent
    · cases hempty
    · cases habsent
  | noEntries _ empty _ _ =>
    refine .of_ne Kind.noConfusion fun o ho => ?_
    subst ho
    rcases empty with hempty | habsent
    · cases hempty
    · cases habsent
  | dataUnit _ value _ _ =>
    refine .of_ne Kind.noConfusion fun o ho => ?_
    subst ho
    cases value
  | _ => exact .of_ne Kind.noConfusion (fun _ => Value.noConfusion)

theorem Deferred.IsFor.tells {item : Deferred} {declared : Ty}
    (h : item.IsFor r (.element declared (some v)) row) : Tells row v := by
  unfold Origin.element at h
  cases h with
  | object _ value => exact .of_object value rfl rfl rfl
  | sequence _ empty | dictionary _ empty =>
    refine .of_ne Kind.noConfusion fun o ho => ?_
    subst ho
    rcases empty with hempty | ⟨-, habsent⟩
    · cases hempty
    · cases habsent
  | dataUnit _ value =>
    refine .of_ne Kind.noConfusion fun o ho => ?_
    subst ho
    cases value

theorem Progress.Labelled.tells {waiting : List Deferred} {i : Nat} {declared : Ty}
    (h : Labelled r p origins waiting) (hrow : p.model.row i = .ok row)
    (ho : origins[i]? = some (.element declared (some v))) : Tells row v := by
  rcases h.shows i row _ hrow ho with hshows | ⟨item, hitem, rfl⟩
  · exact hshows.tells
  · obtain ⟨o, s, ho', hrow', hfor⟩ := h.waits item hitem
    obtain rfl := Option.some.inj (ho.symm.trans ho')
    rw [hrow] at hrow'
    obtain rfl := Except.ok.inj hrow'
    exact hfor.tells

theorem Progress.rowsFrom_eq (p : Progress) (start count : Nat) :
    p.rowsFrom start count = (p.model.rows.toList.drop start).take count := by
  rw [rowsFrom, Array.toList_extract, List.extract_eq_take_drop, Nat.add_sub_cancel_left]

/-- The rows of elements tell which of the elements are objects. -/
theorem Progress.Labelled.rowsFrom_tell {waiting : List Deferred} {start : Nat} {declared : Ty}
    (h : Labelled r p origins waiting)
    (elements : values.map (fun v => .element declared (some v)) <+: origins.drop start) :
    List.Forall₂ Tells (p.rowsFrom start values.length) values := by
  have hlength := elements.length_le
  rw [List.length_map, List.length_drop, h.length] at hlength
  have hrows := p.rowsFrom_eq start values.length
  have hsize : p.size = p.model.rows.toList.length := Array.length_toList.symm
  rw [List.forall₂_iff_get]
  refine ⟨?_, fun k hk hk' => ?_⟩
  · rw [hrows, List.length_take, List.length_drop, ← hsize]
    omega
  · have hrow : p.model.row (start + k) = .ok ((p.rowsFrom start values.length).get ⟨k, hk⟩) := by
      rw [Model.row_eq_ok]
      simp only [hrows, List.get_eq_getElem, List.getElem_take, List.getElem_drop]
      exact List.getElem?_eq_getElem _
    have hget := List.prefix_iff_getElem?.mp elements k (by rwa [List.length_map])
    rw [List.getElem?_drop, List.getElem_map] at hget
    exact h.tells hrow hget

/-- The row that types are compared with: the first one that is present, if there is one. -/
theorem reference_present {first : Row} {rest : List Row} (hrow : row ∈ first :: rest)
    (present : row.value.isNull = false) : ∃ reference ∈ first :: rest,
      ((first :: rest).find? fun r => ! r.value.isNull).getD first = reference ∧
      reference.value.isNull = false ∧ (first.value.isNull = false → reference = first) := by
  cases hfind : (first :: rest).find? fun r => ! r.value.isNull with
  | none =>
    have hnone := List.find?_eq_none.mp hfind row hrow
    rw [present] at hnone
    exact absurd rfl hnone
  | some reference =>
    refine ⟨reference, List.mem_of_find?_eq_some hfind, rfl, ?_, fun hfirst => ?_⟩
    · simpa using List.find?_some hfind
    · rw [List.find?_cons_of_pos (by rw [hfirst]; rfl)] at hfind
      exact (Option.some.inj hfind).symm

theorem compareElement_cases {first reference : Row} {base : Option String} {b : Bool}
    (h : compareElement label first reference base row = .ok b) : row.kind = first.kind ∧
      ((b = true ∧ row.value.isNull = false ∧ row.typeName ≠ reference.typeName ∧ base.isSome = true) ∨
        (b = false ∧ (row.value.isNull = true ∨ row.typeName = reference.typeName))) := by
  unfold compareElement at h
  dsimp only at h
  split at h
  · rename_i hdiffer
    obtain ⟨hkind, htype, hbase⟩ := hdiffer
    rw [not_or] at htype
    cases h
    exact ⟨hkind, Or.inl ⟨rfl, Bool.eq_false_iff.mpr htype.1, htype.2, hbase⟩⟩
  · split at h
    · cases h
    · rename_i hsame
      rw [not_or, not_not, not_not] at hsame
      cases h
      exact ⟨hsame.1, Or.inr ⟨rfl, hsame.2⟩⟩

theorem exists_of_baseName? {first : Row} {declared : Option Ty}
    (h : (baseName? first declared).isSome = true) : first.kind = .object ∧
      ∃ name, (declared.getD .unknown).strip = .object name ∧
        baseName? first declared = some (Naming.typeName name) := by
  unfold baseName? at h ⊢
  cases declared with
  | none => cases h
  | some declared =>
    show first.kind = .object ∧ ∃ name, declared.strip = .object name ∧ _
    simp only [Option.map_some] at h ⊢
    cases hstrip : declared.strip with
    | object name =>
      simp only [hstrip] at h ⊢
      split at h
      · rename_i hkind
        exact ⟨hkind, name, rfl, if_pos hkind⟩
      · cases h
    | _ =>
      simp only [hstrip] at h
      cases h

/-- A collection whose elements agree bears the name of their class just where they have different
types. -/
theorem checkHomogeneous_bears {declared : Option Ty} {base : Option String}
    (tell : List.Forall₂ Tells rows values) (h : checkHomogeneous label rows declared = .ok base) :
    Bears (declared.getD .unknown) values base := by
  cases tell with
  | nil =>
    cases h
    refine Or.inl ⟨?_, rfl⟩
    rintro ⟨o, o', ho, -⟩
    cases ho
  | @cons first v rest values hfirst hrest =>
    have htell : List.Forall₂ Tells (first :: rest) (v :: values) := .cons hfirst hrest
    unfold checkHomogeneous at h
    simp only [bind_eq_ok, pure_eq_ok] at h
    obtain ⟨differ, hdiffer, rfl⟩ := h
    have hcompare := mapM_eq_ok hdiffer
    set reference := ((first :: rest).find? fun r => ! r.value.isNull).getD first with href
    -- A row of another type than the first one makes the collection bear a name.
    have hbears : ∀ x ∈ first :: rest, x.value.isNull = false → x.typeName ≠ reference.typeName →
        true ∈ differ ∧ (baseName? first declared).isSome = true := by
      intro x hx hpresent hother
      obtain ⟨reference', -, hreference, -, hfirstPresent⟩ := reference_present hx hpresent
      rw [← href] at hreference
      subst hreference
      rcases List.mem_cons.mp hx with rfl | hx
      · exact absurd (congrArg Row.typeName (hfirstPresent hpresent)).symm hother
      · obtain ⟨b, hb, hok⟩ := exists_of_forall₂ hcompare hx
        rcases compareElement_cases hok with ⟨-, ⟨rfl, -, -, hbase⟩ | ⟨-, hnull | hsame⟩⟩
        · exact ⟨hb, hbase⟩
        · exact absurd (hpresent.symm.trans hnull) Bool.false_ne_true
        · exact absurd hsame hother
    by_cases hmixed : Mixed (v :: values)
    · refine Or.inr ⟨hmixed, ?_⟩
      obtain ⟨o, o', ho, ho', hne⟩ := hmixed
      obtain ⟨x, hx, htellX⟩ := exists_of_forall₂ htell.flip ho
      obtain ⟨x', hx', htellX'⟩ := exists_of_forall₂ htell.flip ho'
      obtain ⟨-, htype, hpresent⟩ := htellX.object o rfl
      obtain ⟨-, htype', hpresent'⟩ := htellX'.object o' rfl
      have htrue : true ∈ differ ∧ (baseName? first declared).isSome = true := by
        by_cases hx₀ : x.typeName = reference.typeName
        · refine hbears x' hx' hpresent' fun hx₁ => hne ?_
          exact Option.some.inj (htype.symm.trans (hx₀.trans (hx₁.symm.trans htype')))
        · exact hbears x hx hpresent hx₀
      obtain ⟨-, name, hstrip, hbase⟩ := exists_of_baseName? htrue.2
      refine ⟨name, hstrip, ?_⟩
      rw [if_pos (List.any_eq_true.mpr ⟨true, htrue.1, rfl⟩), hbase]
    · refine Or.inl ⟨hmixed, ?_⟩
      split
      · rename_i hany
        obtain ⟨b, hb, rfl⟩ := List.any_eq_true.mp hany
        obtain ⟨x, hx, hok⟩ := exists_of_forall₂ hcompare.flip hb
        rcases compareElement_cases hok with ⟨hkind, ⟨-, hpresent, hother, hbase⟩ | ⟨hfalse, -⟩⟩
        · exfalso
          obtain ⟨hfirstKind, -⟩ := exists_of_baseName? hbase
          obtain ⟨reference', hmem, hreference, hreferencePresent, -⟩ :=
            reference_present (List.mem_cons_of_mem first hx) hpresent
          rw [← href] at hreference
          subst hreference
          have hreferenceKind : reference.kind = .object := by
            rcases List.mem_cons.mp hmem with heq | hmem
            · rw [heq, hfirstKind]
            · obtain ⟨b, -, hok'⟩ := exists_of_forall₂ hcompare hmem
              exact (compareElement_cases hok').1.trans hfirstKind
          obtain ⟨v', hv', htellX⟩ := exists_of_forall₂ htell (List.mem_cons_of_mem first hx)
          obtain ⟨v'', hv'', htellReference⟩ := exists_of_forall₂ htell hmem
          obtain ⟨o, rfl⟩ := htellX.present (hkind.trans hfirstKind) hpresent
          obtain ⟨o', rfl⟩ := htellReference.present hreferenceKind hreferencePresent
          refine hmixed ⟨o, o', hv', hv'', fun heq => hother ?_⟩
          rw [(htellX.object o rfl).2.1, (htellReference.object o' rfl).2.1, heq]
        · cases hfalse
      · rfl

end ObjectPack.Walk
