import ObjectPack.Proofs.Walk.Parts

/-!
# What looking into a value predicts

Before a collection gets its row it is looked into, and this look tells what will become of it.  A value that
is not supported adds nothing where such values are left out, and one that is supported gets its row unless it
does not fit its declared type; it is never refused as unsupported (`Walk.Rules.addRowFor_predicted`).

The look is cast far ahead: the parts of a collection get their rows only when its turn has come.  What they are
can be read off the collection as it is put off (`Walk.Deferred.series`): the elements of an array are one
series of parts, and the keys and the values of a dictionary are two.  A turn that succeeds gives every part of
every series its row, and no series is empty or longer than another one (`Walk.Progress.Filled`).
-/

namespace ObjectPack.Walk

open Outcome Progress

/-! ### Rows of several values -/

/-- Whether a row is the one that something gets when it is added. -/
def Drawn (r : Rules) (o : Origin) (row : Row) : Prop :=
  (∃ texts, Plain r texts o row) ∨ ∃ item : Deferred, item.IsFor r o row

/-- Whether rows have been added for some things, in their order. -/
def Progress.Appends (r : Rules) (p p' : Progress) (parts : List Origin) : Prop :=
  ∃ rows, p'.model.rows.toList = p.model.rows.toList ++ rows ∧ List.Forall₂ (Drawn r) parts rows

namespace Progress

variable {r : Rules} {p p' p'' : Progress} {o : Origin} {row : Row} {later : List Deferred}
  {parts parts' : List Origin} {i : Nat}

theorem Appends.refl (r : Rules) (p : Progress) : Appends r p p [] :=
  ⟨[], (List.append_nil _).symm, .nil⟩

theorem Appends.trans (h : Appends r p p' parts) (h' : Appends r p' p'' parts') :
    Appends r p p'' (parts ++ parts') := by
  obtain ⟨rows, htable, hdrawn⟩ := h
  obtain ⟨rows', htable', hdrawn'⟩ := h'
  refine ⟨rows ++ rows', ?_, List.rel_append hdrawn hdrawn'⟩
  rw [htable', htable, List.append_assoc]

theorem Gains.appends (h : Gains r p p' o row later) : Appends r p p' [o] := by
  refine ⟨[row], h.rows, .cons ?_ .nil⟩
  rcases h.drawn with ⟨-, hplain⟩ | ⟨item, -, -, hfor⟩
  · exact .inl ⟨_, hplain⟩
  · exact .inr ⟨item, hfor⟩

/-- Rows that stand already stay. -/
theorem Appends.row_old (h : Appends r p p' parts) (hrow : p.model.row i = .ok row) :
    p'.model.row i = .ok row := by
  obtain ⟨rows, htable, -⟩ := h
  have hget := Model.row_eq_ok.mp hrow
  rw [Model.row_eq_ok, htable, List.getElem?_append_left (List.getElem?_eq_some_iff.mp hget).1, hget]

end Progress

variable {r : Rules} {p p' : Progress} {name label : String} {declared : Ty} {value : Option Value}

namespace Rules

theorem addRowFor_appends {result : Option Nat × Progress}
    (h : r.addRowFor p name label declared value = .ok result) :
    Appends r p result.2 (if r.keeps declared value then [.part name declared value] else []) := by
  rcases addRowFor_cases h with ⟨hkeeps, rfl⟩ | ⟨hkeeps, treatment, added, htreated, hadd, rfl⟩
  · rw [hkeeps]
    exact .refl r p
  · obtain ⟨-, row, later, hgains⟩ := addTreated_gains htreated hadd
    rw [hkeeps]
    exact hgains.appends

/-- What is kept gets its row. -/
theorem addRowFor_kept {result : Option Nat × Progress} (keeps : r.keeps declared value = true)
    (h : r.addRowFor p name label declared value = .ok result) :
    result.1.isSome = true ∧ Appends r p result.2 [.part name declared value] := by
  have happends := addRowFor_appends h
  obtain ⟨_, -, hsome⟩ := addRowFor_draws h
  rw [keeps] at happends hsome
  exact ⟨hsome, happends⟩

/-- The rows of elements are those of the elements that get one. -/
theorem addElements_appends {items : List (String × Value)} {result : Nat × Progress}
    (h : r.addElements declared p items = .ok result) :
    Appends r p result.2 (((items.map (·.2)).filter fun item => r.keeps declared (some item)).map
      fun item => .element declared (some item)) := by
  induction items generalizing p result with
  | nil =>
    cases h
    exact .refl r p
  | cons item items ih =>
    unfold addElements at h
    simp only [bind_eq_ok, pure_eq_ok] at h
    obtain ⟨first, hfirst, rest, hrest, rfl⟩ := h
    have happends := (addRowFor_appends hfirst).trans (ih hrest)
    rw [List.map_cons, List.filter_cons]
    split at happends <;> rename_i hkeeps
    · rw [if_pos hkeeps]
      exact happends
    · rw [if_neg hkeeps]
      exact happends

end Rules

/-! ### Series of parts -/

/-- The parts of a collection that get rows, series by series; a collection without parts has those that it
declares. -/
def Deferred.series (r : Rules) : Deferred → List (List Origin)
  | .sequence _ _ items element =>
    let ty := element.getD .unknown
    if items.isEmpty then [[.element ty none]]
    else [(items.filter fun item => r.keeps ty (some item)).map fun item => .element ty (some item)]
  | .dictionary _ _ entries key value =>
    let keyType := key.getD .unknown
    let valueType := value.getD .unknown
    if entries.isEmpty then [[.element keyType none], [.element valueType none]]
    else
      let kept := entries.filter fun entry => r.keeps keyType (some entry.1) && r.keeps valueType (some entry.2)
      [kept.map fun entry => .element keyType (some entry.1), kept.map fun entry => .element valueType (some entry.2)]
  | _ => []

/-- The elements of an array are one series, the keys and the values of a dictionary are two. -/
theorem Deferred.IsFor.length_series {r : Rules} {item : Deferred} {o : Origin} {row : Row} (h : item.IsFor r o row)
    (collection : row.kind = .array ∨ row.kind = .dictionary) :
    (item.series r).length = if row.kind = .dictionary then 2 else 1 := by
  cases h with
  | sequence | dictionary =>
    unfold series
    dsimp only
    split <;> rfl
  | object | dataUnit => rcases collection with hkind | hkind <;> cases hkind

/-- A row that says all that there is to say is not that of a collection. -/
theorem Plain.not_collection {r : Rules} {texts : TextPool} {o : Origin} {row : Row} (h : Plain r texts o row) :
    ¬ (row.kind = .array ∨ row.kind = .dictionary) := by
  have hformat (f : Scalar.Format) : ¬ (Kind.ofFormat f = .array ∨ Kind.ofFormat f = .dictionary) := by
    cases f <;> decide
  cases h with
  | scalar _ | noScalar _ _ => exact hformat _
  | _ => rintro (hkind | hkind) <;> cases hkind

/-- Whether the turn of a collection has given it its parts.  Its row owns the rows of its series, which have been
added at the end of the table, one series behind the other.  Each series has as many parts as the row says; where
it says zero, nothing but one declared part of each. -/
structure Progress.Filled (r : Rules) (p p' : Progress) (i : Nat) (series : List (List Origin)) : Prop where
  owner : ∃ row, p'.model.row i = .ok row ∧ row.start = some p.size ∧
    ∀ parts ∈ series, parts.length = max row.count 1
  rows : List.Forall₂ (Drawn r) series.flatten (p'.model.rows.toList.drop p.size)

namespace Progress

variable {row row' : Row} {series : List (List Origin)} {i : Nat} {p₁ : Progress}

/-- A collection is filled when its parts have got rows and its own row owns them. -/
theorem Appends.filled (h : Appends r p p₁ series.flatten) (hrow : p.model.row i = .ok row)
    (changes : p₁.model.Changes p'.model i row') (start : row'.start = some p.size)
    (lengths : ∀ parts ∈ series, parts.length = max row'.count 1) : Filled r p p' i series := by
  have hi : i < p.size := Model.lt_size_of_row hrow
  have hi₁ := Model.lt_size_of_row (h.row_old hrow)
  obtain ⟨rows, htable, hdrawn⟩ := h
  refine ⟨⟨row', changes.row_self hi₁, start, lengths⟩, ?_⟩
  have hsize : p.size = p.model.rows.toList.length := Array.length_toList.symm
  rw [changes.rows, List.drop_set_of_lt hi, htable, hsize, List.drop_left]
  exact hdrawn

end Progress

namespace Rules

variable {row : Row} {i : Nat}

/-- The turn of an array that gets a row. -/
theorem addSequence_filled {items : List Value} {element : Option Ty}
    (isFor : (Deferred.sequence i label items element).IsFor r (.part name declared value) row)
    (getsRow : r.keeps declared value = true) (hrow : p.model.row i = .ok row)
    (step : r.addSequence p i label items element = .ok p') :
    Filled r p p' i ((Deferred.sequence i label items element).series r) := by
  cases isFor with
  | sequence treated is =>
    unfold addSequence at step
    dsimp only at step
    unfold Deferred.series
    dsimp only
    split at step <;> rename_i hitems
    · rw [if_pos hitems]
      obtain rfl := List.isEmpty_iff.mp hitems
      have hempty : value = some (.sequence []) ∨ isAbsent value = true := is.imp id And.right
      split at step
      · exact absurd step throw_ne_ok
      · rename_i element hdeclares
        simp only [bind_eq_ok, pure_eq_ok] at step
        obtain ⟨⟨added, p₁⟩, hadd, rfl⟩ := step
        -- What the array declares gets a row since the array does.
        have hkeeps : r.keeps element none = true := by
          rw [← keeps_empty_sequence treated hempty hdeclares, getsRow]
        obtain ⟨hsome, happends⟩ := addRowFor_kept hkeeps hadd
        rw [if_pos hsome, hdeclares]
        refine happends.filled hrow (Model.modify_changes (happends.row_old hrow)
          ({ · with start := some p.size, count := 0 })) rfl ?_
        exact fun parts hparts => List.mem_singleton.mp hparts ▸ rfl
    · rw [if_neg hitems]
      obtain rfl : value = some (.sequence items) := is.resolve_right fun hnone => hitems (by
        rw [hnone.1]
        rfl)
      simp only [bind_eq_ok, pure_eq_ok] at step
      obtain ⟨⟨count, p₁⟩, hadd, base, -, rfl⟩ := step
      have happends := addElements_appends hadd
      obtain ⟨kept, _, hkept, -, rfl⟩ := addElements_draws hadd
      rw [map_labelled] at hkept happends
      have hnonempty : kept ≠ [] := by
        obtain ⟨item, hitem, hitemKeeps⟩ := exists_kept_item treated
          (fun hnil => hitems (by rw [hnil]; rfl)) getsRow
        refine List.ne_nil_of_mem (a := item) ?_
        rw [hkept]
        exact List.mem_filter.mpr ⟨hitem, hitemKeeps⟩
      have hlength : 0 < kept.length := List.length_pos_iff.mpr hnonempty
      rw [if_neg (Nat.ne_of_gt hlength), ← hkept]
      rw [← hkept] at happends
      refine Appends.filled (by rwa [List.flatten_singleton]) hrow
        (named_changes_setRange (happends.row_old hrow) rfl base p.size kept.length) rfl ?_
      intro parts hparts
      rw [List.mem_singleton.mp hparts, List.length_map]
      exact (Nat.max_eq_left hlength).symm

/-- The rows of the halves of entries that are all kept. -/
theorem addElements_halves (half : Value × Value → Value) {entries : List (String × Value × Value)}
    {result : Nat × Progress} (keeps : ∀ entry ∈ entries.map (·.2), r.keeps declared (some (half entry)) = true)
    (h : r.addElements declared p (entries.map fun entry => (entry.1, half entry.2)) = .ok result) :
    Appends r p result.2 ((entries.map (·.2)).map fun entry => .element declared (some (half entry))) := by
  have happends := addElements_appends h
  have hall : ((entries.map fun entry => (entry.1, half entry.2)).map (·.2)).filter
      (fun item => r.keeps declared (some item)) = (entries.map (·.2)).map half := by
    rw [List.map_map, List.map_map]
    refine List.filter_eq_self.mpr fun item hitem => ?_
    obtain ⟨entry, hentry, rfl⟩ := List.mem_map.mp hitem
    exact keeps _ (List.mem_map_of_mem hentry)
  rw [hall, List.map_map] at happends
  exact happends

/-- The rows of the entries that are kept are those of their keys and then those of their values. -/
theorem addElements_kept {key val : Ty} {entries kept : List (String × Value × Value)} {keys values : Nat × Progress}
    (hkept : r.keepEntries key val entries = .ok kept)
    (hkeys : r.addElements key p (kept.map fun entry => (entry.1, entry.2.1)) = .ok keys)
    (hvalues : r.addElements val keys.2 (kept.map fun entry => (entry.1, entry.2.2)) = .ok values) :
    Appends r p values.2 ((kept.map (·.2)).map (fun entry => .element key (some entry.1)) ++
      (kept.map (·.2)).map fun entry => .element val (some entry.2)) := by
  have hkeeps : ∀ entry ∈ kept.map (·.2), r.keeps key (some entry.1) = true ∧ r.keeps val (some entry.2) = true := by
    intro entry hentry
    rw [keepEntries_filter hkept] at hentry
    exact Bool.and_eq_true_iff.mp (List.mem_filter.mp hentry).2
  exact (addElements_halves Prod.fst (fun entry hentry => (hkeeps entry hentry).1) hkeys).trans
    (addElements_halves Prod.snd (fun entry hentry => (hkeeps entry hentry).2) hvalues)

/-- The turn of a dictionary that gets a row. -/
theorem addEntries_filled {entries : List (Value × Value)} {key val : Option Ty}
    (isFor : (Deferred.dictionary i label entries key val).IsFor r (.part name declared value) row)
    (getsRow : r.keeps declared value = true) (hrow : p.model.row i = .ok row)
    (step : r.addEntries p i label entries key val = .ok p') :
    Filled r p p' i ((Deferred.dictionary i label entries key val).series r) := by
  cases isFor with
  | dictionary treated is =>
    unfold addEntries at step
    dsimp only at step
    unfold Deferred.series
    dsimp only
    split at step <;> rename_i hentries
    · rw [if_pos hentries]
      obtain rfl := List.isEmpty_iff.mp hentries
      have hempty : value = some (.dictionary []) ∨ isAbsent value = true := is.imp id And.right
      cases hdeclares : declared.strip.entry? with
      | none =>
        rw [hdeclares] at step
        exact absurd step throw_ne_ok
      | some types =>
        obtain ⟨key, val⟩ := types
        rw [hdeclares] at step
        simp only [Option.map_some, bind_eq_ok, pure_eq_ok] at step
        obtain ⟨⟨k, p₁⟩, hkey, ⟨v, p₂⟩, hval, rfl⟩ := step
        -- What the dictionary declares gets rows since the dictionary does.
        rw [keeps_empty_dictionary treated hempty hdeclares, Bool.and_eq_true] at getsRow
        obtain ⟨hsome, hkeys⟩ := addRowFor_kept getsRow.1 hkey
        obtain ⟨hsome', hvals⟩ := addRowFor_kept getsRow.2 hval
        have happends := hkeys.trans hvals
        rw [if_pos ⟨hsome, hsome'⟩]
        refine happends.filled hrow (Model.modify_changes (happends.row_old hrow)
          ({ · with start := some p.size, count := 0 })) rfl ?_
        intro parts hparts
        rcases List.mem_cons.mp hparts with rfl | hparts
        · rfl
        · exact List.mem_singleton.mp hparts ▸ rfl
    · rw [if_neg hentries]
      obtain rfl : value = some (.dictionary entries) := is.resolve_right fun hnone => hentries (by
        rw [hnone.1]
        rfl)
      simp only [bind_eq_ok, pure_eq_ok] at step
      obtain ⟨entries', hentries', ⟨keys, p₁⟩, hkeys, ⟨values, p₂⟩, hvalues, -, -, base, -, rfl⟩ := step
      have hkept := keepEntries_filter hentries'
      rw [map_labelled] at hkept
      have happends := addElements_kept hentries' hkeys hvalues
      have hlength : entries'.length = (entries'.map (·.2)).length := (List.length_map _).symm
      rw [hlength, ← hkept]
      generalize entries'.map (·.2) = kept at hkept happends
      have hpos : 0 < kept.length := by
        obtain ⟨entry, hentry, hboth⟩ := exists_kept_entry treated
          (fun hnil => hentries (by rw [hnil]; rfl)) getsRow
        refine List.length_pos_of_mem (a := entry) ?_
        rw [hkept]
        exact List.mem_filter.mpr ⟨hentry, Bool.and_eq_true_iff.mpr hboth⟩
      rw [if_neg (Nat.ne_of_gt hpos)]
      refine Appends.filled ?_ hrow
        (named_changes_setRange (happends.row_old hrow) rfl base p.size kept.length) rfl ?_
      · rw [List.flatten_cons, List.flatten_singleton]
        exact happends
      · intro parts hparts
        rw [Nat.max_eq_left hpos]
        rcases List.mem_cons.mp hparts with rfl | hparts
        · exact List.length_map _
        · rw [List.mem_singleton.mp hparts, List.length_map]

/-- The turn of a collection that gets a row. -/
theorem addParts_filled {item : Deferred} (isFor : item.IsFor r (.part name declared value) row)
    (collection : row.kind = .array ∨ row.kind = .dictionary) (getsRow : r.keeps declared value = true)
    (hrow : p.model.row item.row = .ok row) (step : r.addParts p item = .ok p') :
    Filled r p p' item.row (item.series r) := by
  cases item with
  | sequence i label items element => exact addSequence_filled isFor getsRow hrow step
  | dictionary i label entries key val => exact addEntries_filled isFor getsRow hrow step
  | object i object =>
    cases isFor
    rcases collection with hkind | hkind <;> cases hkind
  | dataUnit i unit =>
    cases isFor
    rcases collection with hkind | hkind <;> cases hkind

/-! ### What the look predicts -/

/-- A value that does not fit is not refused as one that is not supported. -/
theorem addTreated_error {treatment : Treatment} {e : WalkError}
    (h : addTreated p name label declared value treatment = .error e) (l type : String) :
    e ≠ .unsupportedType l type := by
  unfold addTreated at h
  cases treatment <;> dsimp only at h <;> repeat' split at h
  all_goals
    cases h
    try exact WalkError.noConfusion

/-- Only a value that fits its declared type is looked into. -/
theorem exists_treatment? {b : Bool} (h : r.supports label declared value = .ok b) :
    ∃ t, r.treatment? label declared.strip value = .ok t := by
  cases htreatment : r.treatment? label declared.strip value with
  | ok t => exact ⟨t, rfl⟩
  | error e =>
    cases value with
    | none =>
      rw [supports, supportsType_eq, htreatment] at h
      cases h
    | some value =>
      rw [supports, supportsValue_eq, htreatment] at h
      cases h

/-- A value with a treatment that is not supported is a collection. -/
theorem collection_of_unsupported {treatment : Treatment}
    (treated : r.treatment? label declared.strip value = .ok (some treatment))
    (h : r.supports label declared value = .ok false) : treatment = .array ∨ treatment = .dictionary := by
  by_contra hplain
  obtain ⟨harray, hdictionary⟩ := not_or.mp hplain
  have husable := usable_of_treatmentOf (treatmentOf_eq treated) harray hdictionary
  rw [usable_of_supports h] at husable
  cases husable

/-- A value that is not supported adds nothing where such values are left out. -/
theorem addRowFor_of_unsupported (skip : r.unknown = .skip) (h : r.supports label declared value = .ok false) :
    r.addRowFor p name label declared value = .ok (none, p) := by
  have hrefuse (ty : Ty) : r.refuse label ty = .ok () := by rw [refuse, skip]
  have hstrip := h
  rw [← supports_strip] at hstrip
  obtain ⟨t, htreatment⟩ := exists_treatment? h
  unfold addRowFor
  cases t with
  | none =>
    simp only [htreatment, hrefuse]
    rfl
  | some t =>
    simp only [htreatment, hstrip, hrefuse, bind, Except.bind]
    rw [if_pos ⟨collection_of_unsupported htreatment h, skip⟩]
    rfl

/-- **Looking into a value predicts adding it**, whatever the classifier and the policy.  Where unsupported values
are left out, one that is not supported adds nothing.  One that is supported is never refused as unsupported: it
does not fit its declared type, or it gets its row.  If that is the row of an array or of a dictionary, every turn of
the collection that succeeds fills it, at any time, as long as the row stands as it was added. -/
theorem addRowFor_predicted (r : Rules) (p : Progress) (name label : String) (declared : Ty)
    (value : Option Value) :
    (r.supports label declared value = .ok false → r.unknown = .skip →
      r.addRowFor p name label declared value = .ok (none, p)) ∧
    (r.supports label declared value = .ok true →
      (∃ e, r.addRowFor p name label declared value = .error e ∧ ∀ l type, e ≠ .unsupportedType l type) ∨
      ∃ p' row, r.addRowFor p name label declared value = .ok (some p.size, p') ∧
        p'.model.rows.toList = p.model.rows.toList ++ [row] ∧
        (row.kind = .array ∨ row.kind = .dictionary → ∃ item, p'.deferred = p.deferred ++ [item] ∧
          item.row = p.size ∧ (item.series r).length = (if row.kind = .dictionary then 2 else 1) ∧
          ∀ q q', q.model.row p.size = .ok row → r.addParts q item = .ok q' →
            Filled r q q' p.size (item.series r))) := by
  refine ⟨fun h skip => addRowFor_of_unsupported skip h, fun h => ?_⟩
  have hgetsRow := keeps_of_usable (usable_of_supports h)
  obtain ⟨_ | treatment, htreatment⟩ := exists_treatment? h
  · rw [supports_of_none htreatment] at h
    cases h
  rw [addRowFor_eq_of_supports htreatment h]
  cases hadd : addTreated p name label declared.strip value treatment with
  | error e => exact .inl ⟨e, rfl, addTreated_error hadd⟩
  | ok added =>
    obtain ⟨hindex, row, later, hgains⟩ := addTreated_gains (treatmentOf_eq htreatment) hadd
    refine .inr ⟨added.2, row, by rw [← hindex]; rfl, hgains.rows, fun hcollection => ?_⟩
    rcases hgains.drawn with ⟨-, hplain⟩ | ⟨item, rfl, hrow, hfor⟩
    · exact absurd hcollection hplain.not_collection
    · refine ⟨item, hgains.deferred, hrow, hfor.length_series hcollection, fun q q' hq step => ?_⟩
      rw [← hrow] at hq ⊢
      exact addParts_filled hfor hcollection hgetsRow hq step

/-- Rules that leave out what is not supported. -/
def leavingOut : Rules := ⟨.standard, .skip, .declaration, "m_"⟩

/-- A dictionary whose first value is not supported. -/
def patchyEntries : Value := .dictionary [(.text "a", .null), (.text "b", .scalar (.i32 7))]

/-- The dictionary gets its row, and its turn gives it the second key and the second value; one that holds nothing
but the first entry is left out. -/
theorem addRowFor_predicted_patchyEntries : ∃ p' q' item,
    leavingOut.addRowFor ⟨.empty, [], []⟩ "m" "T.m" (.dictionary .string .unknown) (some patchyEntries)
      = .ok (some 0, p') ∧
    p'.deferred = [item] ∧ leavingOut.addParts p' item = .ok q' ∧ q'.size = 3 ∧
    (item.series leavingOut).length = 2 ∧ Filled leavingOut p' q' 0 (item.series leavingOut) ∧
    leavingOut.addRowFor p' "n" "T.n" (.dictionary .string .unknown) (some (.dictionary [(.text "a", .null)]))
      = .ok (none, p') := by
  have hcheck : (leavingOut.addRowFor ⟨.empty, [], []⟩ "m" "T.m" (.dictionary .string .unknown)
      (some patchyEntries)).toOption.any (fun x => (x.2.model.row 0).toOption.any (·.kind = .dictionary) &&
        x.2.deferred.head?.any fun item => (leavingOut.addParts x.2 item).toOption.any (·.size = 3)) = true := by
    decide +kernel
  simp only [Option.any_eq_true, Bool.and_eq_true, decide_eq_true_eq, toOption_eq_some, Prod.exists] at hcheck
  obtain ⟨i, p₁, hadd, ⟨row₁, hrow₁, hkind⟩, item₁, hitem, q', hturn, hsize⟩ := hcheck
  rcases (addRowFor_predicted leavingOut ⟨.empty, [], []⟩ "m" "T.m" (.dictionary .string .unknown)
    (some patchyEntries)).2 (by decide +kernel) with ⟨e, herror, -⟩ | ⟨p', row, hok, hrows, hfills⟩
  · rw [hadd] at herror
    cases herror
  · obtain ⟨rfl, rfl⟩ := Prod.mk.inj (Except.ok.inj (hadd.symm.trans hok))
    have hrow : p₁.model.row 0 = .ok row := by
      rw [Model.row_eq_ok, hrows]
      rfl
    obtain rfl := Except.ok.inj (hrow₁.symm.trans hrow)
    obtain ⟨item, hdeferred, -, hlength, hfilled⟩ := hfills (.inr hkind)
    obtain rfl : item = item₁ := by
      rw [hdeferred] at hitem
      exact Option.some.inj hitem
    rw [if_pos hkind] at hlength
    exact ⟨p₁, q', item, hok, hdeferred, hturn, hsize, hlength, hfilled p₁ q' hrow hturn,
      (addRowFor_predicted leavingOut p₁ "n" "T.n" (.dictionary .string .unknown)
        (some (.dictionary [(.text "a", .null)]))).1 (by decide +kernel) rfl⟩

end Rules

end ObjectPack.Walk
