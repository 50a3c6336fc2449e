import Mathlib.Data.List.Infix
import ObjectPack.Proofs.Walk.Picture
import ObjectPack.Proofs.Walk.Sound

/-!
# Pictures that are being drawn

While an object graph is walked, every row either shows what it stands for or is that of a value that
waits for its turn (`Walk.Progress.Labelled`).  Adding a row keeps this (`Labelled.add`), and when the
parts of a value have got their rows, its own row shows it (`Labelled.settle`); a turn is rows that are
added and one row that is settled.

Turns come in the order of the rows, so the row that a data unit of some signature settles first is the
first row of that signature.
-/

namespace ObjectPack.Walk

open Outcome Progress

variable {r : Rules} {o : Origin} {row : Row} {origins origins' new : List Origin} {m : Model}
  {use : Ty → Option Value → Bool} {texts texts' : TextPool}

/-! ### Rows and labels -/

theorem Plain.mono (h : Plain r texts o row) (more : texts.entries <+: texts'.entries) :
    Plain r texts' o row := by
  cases h with
  | text treated pooled =>
    refine .text treated ?_
    obtain ⟨rest, hrest⟩ := more
    rw [← hrest, List.getElem?_append_left (List.getElem?_eq_some_iff.mp pooled).1]
    exact pooled
  | bool treated => exact .bool treated
  | noBool treated absent => exact .noBool treated absent
  | scalar treated => exact .scalar treated
  | noScalar treated absent => exact .noScalar treated absent
  | noText treated absent => exact .noText treated absent
  | enum treated => exact .enum treated
  | noEnum treated absent declares => exact .noEnum treated absent declares
  | custom treated => exact .custom treated
  | noCustom treated => exact .noCustom treated
  | noObject treated absent => exact .noObject treated absent
  | noUnit treated absent => exact .noUnit treated absent

/-- A row still shows what it stands for when texts and rows have been added. -/
theorem Shows.mono (h : Shows r use texts origins o row) (more : texts.entries <+: texts'.entries)
    (longer : origins <+: origins') : Shows r use texts' origins' o row := by
  have hrows : ∀ {parts : List Origin} {start : Nat}, parts <+: origins.drop start →
      parts <+: origins'.drop start := fun hparts => hparts.trans (List.IsPrefix.drop longer _)
  cases h with
  | plain h => exact .plain (h.mono more)
  | object treated value order used rows => exact .object treated value order used (hrows rows)
  | sequence treated used nonempty bears rows => exact .sequence treated used nonempty bears (hrows rows)
  | noElements treated empty declares rows => exact .noElements treated empty declares (hrows rows)
  | dictionary treated types used nonempty bears rows =>
    exact .dictionary treated types used nonempty bears (hrows rows)
  | noEntries treated empty declares rows => exact .noEntries treated empty declares (hrows rows)
  | dataUnit treated value same shared =>
    refine .dataUnit treated value same ?_
    obtain ⟨rest, rfl⟩ := longer
    rw [List.getElem?_append_left (List.getElem?_eq_some_iff.mp shared).1]
    exact shared

theorem Plain.value_ne (h : Plain r texts o row) (s : Digest) : row.value ≠ .dataUnit s := by
  cases h <;> exact Payload.noConfusion

/-- The rows of data units are settled with a range. -/
theorem Shows.start_of_dataUnit {s : Digest} (h : Shows r use texts origins o row)
    (value : row.value = .dataUnit s) : ∃ root, row.start = some root := by
  cases h with
  | plain h => exact absurd value (h.value_ne s)
  | dataUnit _ _ _ _ => exact ⟨_, rfl⟩
  | _ => cases value

namespace Progress

variable {p p₁ p' p'' : Progress} {item : Deferred} {waiting later later' : List Deferred} {i : Nat}

/-- Whether the rows of a walk stand for values of the graph, and show them unless these wait for their
turn. -/
structure Labelled (r : Rules) (p : Progress) (origins : List Origin) (waiting : List Deferred) :
    Prop where
  length : origins.length = p.size
  shows : ∀ i row o, p.model.row i = .ok row → origins[i]? = some o →
    Shows r r.keeps p.model.texts origins o row ∨ ∃ item ∈ waiting, item.row = i
  waits : ∀ item ∈ waiting, ∃ o row, origins[item.row]? = some o ∧ p.model.row item.row = .ok row ∧
    item.IsFor r o row
  ascending : (waiting.map Deferred.row).Pairwise (· < ·)
  admits : ∀ o ∈ origins, r.Admits o
  known : ∀ j row s root, p.model.row j = .ok row → row.value = .dataUnit s → row.start = some root →
    p.units.lookup s = some root
  introduced : ∀ s root, p.units.lookup s = some root → ∃ i, Introduces p.model origins s root i

/-! ### Adding rows -/

theorem Gains.size_eq (h : Gains r p p' o row later) : p'.size = p.size + 1 := by
  have hlength := congrArg List.length h.rows
  rwa [List.length_append, Array.length_toList, Array.length_toList] at hlength

theorem Gains.row_old {j : Nat} {s : Row} (h : Gains r p p' o row later)
    (hrow : p.model.row j = .ok s) : p'.model.row j = .ok s := by
  have hget := Model.row_eq_ok.mp hrow
  rw [Model.row_eq_ok, h.rows, List.getElem?_append_left (List.getElem?_eq_some_iff.mp hget).1, hget]

theorem Gains.row_new (h : Gains r p p' o row later) : p'.model.row p.size = .ok row := by
  have hsize : p.size = p.model.rows.toList.length := Array.length_toList.symm
  rw [Model.row_eq_ok, h.rows, hsize, List.getElem?_concat_length]

theorem Gains.row_cases {j : Nat} {s : Row} (h : Gains r p p' o row later)
    (hrow : p'.model.row j = .ok s) : p.model.row j = .ok s ∨ (j = p.size ∧ s = row) := by
  by_cases hj : j < p.size
  · refine Or.inl ?_
    have hget := Model.row_eq_ok.mp hrow
    rw [h.rows, List.getElem?_append_left (by rwa [Array.length_toList])] at hget
    exact Model.row_eq_ok.mpr hget
  · have hlt : j < p'.size := Model.lt_size_of_row hrow
    have hsize := h.size_eq
    obtain rfl : j = p.size := by omega
    rw [h.row_new] at hrow
    exact Or.inr ⟨rfl, (Except.ok.inj hrow).symm⟩

/-- The row of a data unit has no range when it is added. -/
theorem Gains.start_of_dataUnit {s : Digest} (h : Gains r p p' o row later)
    (value : row.value = .dataUnit s) : row.start = none := by
  rcases h.drawn with ⟨-, hplain⟩ | ⟨item, -, -, hfor⟩
  · exact absurd value (hplain.value_ne s)
  · exact hfor.isOf.start

theorem Gains.later_row (h : Gains r p p' o row later) (hitem : item ∈ later) : item.row = p.size := by
  rcases h.drawn with ⟨rfl, -⟩ | ⟨item', rfl, hrow, -⟩
  · cases hitem
  · rwa [List.mem_singleton.mp hitem]

/-- A row that is added introduces no data unit. -/
theorem Gains.introduces {s : Digest} {root : Nat} (h : Gains r p p' o row later)
    (intro' : Introduces p.model origins s root i) : Introduces p'.model (origins ++ [o]) s root i where
  row := by
    obtain ⟨row, hrow, hvalue, hstart⟩ := intro'.row
    exact ⟨row, h.row_old hrow, hvalue, hstart⟩
  unit := by
    obtain ⟨o', unit, ho, hvalue, hsignature, hroot⟩ := intro'.unit
    refine ⟨o', unit, ?_, hvalue, hsignature, ?_⟩
    · rw [List.getElem?_append_left (List.getElem?_eq_some_iff.mp ho).1]
      exact ho
    · rw [List.getElem?_append_left (List.getElem?_eq_some_iff.mp hroot).1]
      exact hroot
  first := by
    intro j row' hrow' hvalue
    obtain ⟨row₀, hrow₀, -⟩ := intro'.row
    rcases h.row_cases hrow' with hold | ⟨rfl, -⟩
    · exact intro'.first j row' hold hvalue
    · exact Nat.le_of_lt (Model.lt_size_of_row hrow₀)

/-- Whatever is added, every row shows what it stands for or waits. -/
theorem Labelled.add (h : Labelled r p origins waiting) (gains : Gains r p p' o row later)
    (admits : r.Admits o) : Labelled r p' (origins ++ [o]) (waiting ++ later) := by
  have hlonger : origins <+: origins ++ [o] := List.prefix_append _ _
  have hnew : (origins ++ [o])[p.size]? = some o := by
    rw [← h.length]
    exact List.getElem?_concat_length
  exact
    { length := by
        rw [List.length_append, h.length, gains.size_eq]
        rfl
      shows := by
        intro i s o' hrow ho'
        rcases gains.row_cases hrow with hold | ⟨rfl, rfl⟩
        · have hlt : i < origins.length := h.length ▸ Model.lt_size_of_row hold
          rw [List.getElem?_append_left hlt] at ho'
          refine (h.shows i s o' hold ho').imp (fun hshows => hshows.mono gains.texts hlonger) ?_
          rintro ⟨item, hitem, hi⟩
          exact ⟨item, List.mem_append_left _ hitem, hi⟩
        · obtain rfl : o = o' := Option.some.inj (hnew.symm.trans ho')
          rcases gains.drawn with ⟨-, hplain⟩ | ⟨item, rfl, hitem, -⟩
          · exact Or.inl (.plain hplain)
          · exact Or.inr ⟨item, List.mem_append_right _ List.mem_cons_self, hitem⟩
      waits := by
        intro item hitem
        rcases List.mem_append.mp hitem with hitem | hitem
        · obtain ⟨o', s, ho', hrow, hfor⟩ := h.waits item hitem
          refine ⟨o', s, ?_, gains.row_old hrow, hfor⟩
          rw [List.getElem?_append_left (List.getElem?_eq_some_iff.mp ho').1]
          exact ho'
        · have hrow := gains.later_row hitem
          rcases gains.drawn with ⟨rfl, -⟩ | ⟨item', rfl, -, hfor⟩
          · cases hitem
          · obtain rfl := List.mem_singleton.mp hitem
            rw [hrow]
            exact ⟨o, row, hnew, gains.row_new, hfor⟩
      ascending := by
        rw [List.map_append, List.pairwise_append]
        refine ⟨h.ascending, ?_, ?_⟩
        · rcases gains.drawn with ⟨rfl, -⟩ | ⟨item', rfl, -⟩
          · exact List.Pairwise.nil
          · exact List.pairwise_singleton _ _
        · intro a ha b hb
          obtain ⟨item, hitem, rfl⟩ := List.mem_map.mp ha
          obtain ⟨item', hitem', rfl⟩ := List.mem_map.mp hb
          obtain ⟨-, s, -, hrow, -⟩ := h.waits item hitem
          rw [gains.later_row hitem']
          exact Model.lt_size_of_row hrow
      admits := by
        intro o' ho'
        rcases List.mem_append.mp ho' with ho' | ho'
        · exact h.admits o' ho'
        · rw [List.mem_singleton.mp ho']
          exact admits
      known := by
        intro j s d root hrow hvalue hstart
        rw [gains.units]
        rcases gains.row_cases hrow with hold | ⟨-, rfl⟩
        · exact h.known j s d root hold hvalue hstart
        · rw [gains.start_of_dataUnit hvalue] at hstart
          cases hstart
      introduced := by
        intro s root hs
        rw [gains.units] at hs
        obtain ⟨i, hi⟩ := h.introduced s root hs
        exact ⟨i, gains.introduces hi⟩ }

/-! ### Settling rows -/

/-- Changing the row of a value that waits does not change who has introduced a data unit. -/
theorem Labelled.introduces {s : Digest} {root : Nat} {row' : Row}
    (h : Labelled r p origins (item :: waiting)) (changes : p.model.Changes p'.model item.row row')
    (value : row'.value = item.payload) (intro' : Introduces p.model origins s root i) :
    Introduces p'.model origins s root i where
  row := by
    obtain ⟨s', hrow, hvalue, hstart⟩ := intro'.row
    obtain ⟨_, s₀, -, hrow₀, hfor⟩ := h.waits item List.mem_cons_self
    refine ⟨s', (changes.row_of_ne ?_).mpr hrow, hvalue, hstart⟩
    rintro rfl
    rw [hrow₀] at hrow
    obtain rfl := Except.ok.inj hrow
    rw [hfor.isOf.start] at hstart
    cases hstart
  unit := intro'.unit
  first := by
    intro j s' hrow' hvalue
    obtain ⟨_, s₀, -, hrow₀, hfor⟩ := h.waits item List.mem_cons_self
    by_cases hj : j = item.row
    · subst hj
      rw [changes.row_self (Model.lt_size_of_row hrow₀)] at hrow'
      obtain rfl := Except.ok.inj hrow'
      exact intro'.first _ s₀ hrow₀ (hfor.isOf.value.trans (value.symm.trans hvalue))
    · exact intro'.first j s' ((changes.row_of_ne hj).mp hrow') hvalue

/-- A value whose row shows it waits no more. -/
theorem Labelled.settle {row' : Row} (h : Labelled r p origins (item :: waiting))
    (changes : p.model.Changes p'.model item.row row') (value : row'.value = item.payload)
    (shows : ∀ o, origins[item.row]? = some o → Shows r r.keeps p.model.texts origins o row')
    (keeps : ∀ s root, p.units.lookup s = some root → p'.units.lookup s = some root)
    (adds : ∀ s root, p'.units.lookup s = some root → p.units.lookup s = some root ∨
      Introduces p'.model origins s root item.row)
    (known : ∀ s root, row'.value = .dataUnit s → row'.start = some root →
      p'.units.lookup s = some root) : Labelled r p' origins waiting := by
  obtain ⟨_, s₀, -, hrow₀, hfor⟩ := h.waits item List.mem_cons_self
  have hself : p'.model.row item.row = .ok row' := changes.row_self (Model.lt_size_of_row hrow₀)
  have hascending := h.ascending
  rw [List.map_cons, List.pairwise_cons] at hascending
  -- Waiting values have different rows, so the others are left alone.
  have hafter : ∀ other ∈ waiting, other.row ≠ item.row := fun other hother =>
    Nat.ne_of_gt (hascending.1 _ (List.mem_map_of_mem hother))
  exact
    { length := h.length.trans changes.size_eq.symm
      shows := by
        intro i s o hrow ho
        rw [changes.texts]
        by_cases hi : i = item.row
        · subst hi
          rw [hself] at hrow
          exact Or.inl (Except.ok.inj hrow ▸ shows o ho)
        · refine (h.shows i s o ((changes.row_of_ne hi).mp hrow) ho).imp id ?_
          rintro ⟨other, hother, rfl⟩
          rcases List.mem_cons.mp hother with rfl | hother
          · exact absurd rfl hi
          · exact ⟨other, hother, rfl⟩
      waits := by
        intro other hother
        obtain ⟨o, s, ho, hrow, hother'⟩ := h.waits other (List.mem_cons_of_mem _ hother)
        exact ⟨o, s, ho, (changes.row_of_ne (hafter other hother)).mpr hrow, hother'⟩
      ascending := hascending.2
      admits := h.admits
      known := by
        intro j s d root hrow hvalue hstart
        by_cases hj : j = item.row
        · subst hj
          rw [hself] at hrow
          obtain rfl := Except.ok.inj hrow
          exact known d root hvalue hstart
        · exact keeps d root (h.known j s d root ((changes.row_of_ne hj).mp hrow) hvalue hstart)
      introduced := by
        intro s root hs
        rcases adds s root hs with hold | hnew
        · obtain ⟨i, hi⟩ := h.introduced s root hold
          exact ⟨i, h.introduces changes value hi⟩
        · exact ⟨_, hnew⟩ }

/-- The row of a value other than a data unit shows it. -/
theorem Labelled.settle_plain {row' : Row} (h : Labelled r p origins (item :: waiting))
    (changes : p.model.Changes p'.model item.row row') (kind : item.kind ≠ .dataUnit)
    (value : row'.value = .present)
    (shows : ∀ o, origins[item.row]? = some o → Shows r r.keeps p.model.texts origins o row')
    (units : p'.units = p.units) : Labelled r p' origins waiting := by
  refine h.settle changes (value.trans (item.payload_of_ne kind).symm) shows ?_ ?_ ?_
  · exact fun s root hs => units ▸ hs
  · exact fun s root hs => Or.inl (units ▸ hs)
  · intro s root hs
    rw [value] at hs
    cases hs

end Progress

end ObjectPack.Walk
