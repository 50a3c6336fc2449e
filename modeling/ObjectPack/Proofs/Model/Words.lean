import ObjectPack.Proofs.Model.Bits
import ObjectPack.Proofs.Model.Range

/-!
# Words of booleans

Folding the booleans of an object loses none of them and takes none twice, however many there are
(`Model.foldBooleans_exact`): the other fields move to the front of the range, behind them stands one word for every
32 booleans, and the word of each group has the bits of its booleans and owns their copies at the end of the table.
All of this can be read off the rows of the table afterwards (`Model.foldBooleans_of_some`), and nothing else is
known of the model than that the range of the object lies inside the table and does not hold the object.
-/

namespace ObjectPack

open Outcome

namespace Model

variable {m m' : Model} {i j k : Nat} {owner row : Row} {span : Span} {l bools : List Row}

/-- Whether one model is another one with the booleans of an object folded, where `others` are its fields that are
no booleans. -/
structure FoldedExactly (m m' : Model) (i : Nat) (owner : Row) (span : Span) (others bools : List Row) :
    Prop where
  total : others.length + bools.length = span.length
  none : bools = [] → m' = m
  /-- The other fields stand in front, in their order. -/
  other : ∀ k r, others[k]? = some r → m'.row (span.start + k) = .ok r
  owner : bools ≠ [] → m'.row i = .ok { owner with count := others.length + (bools.length + 31) / 32 }
  /-- Behind them stands one word for every 32 booleans. -/
  word : ∀ g < (bools.length + 31) / 32, ∃ first word, bools[32 * g]? = some first ∧
    m'.row (span.start + others.length + g) = .ok ⟨.bitSet, first.name, Option.none, some (m.size + 32 * g),
      min (32 * g + 32) bools.length - 32 * g, .bitSet word⟩ ∧
    ∀ k, word.toNat.testBit k = true ↔ k < 32 ∧ ∃ b, bools[32 * g + k]? = some b ∧ b.value = .bool true
  copy : ∀ k r, bools[k]? = some r → m'.row (m.size + k) = .ok r
  size : m'.size = m.size + bools.length
  outside : ∀ j < m.size, j ≠ i → j < span.start ∨ span.stop ≤ j → m'.row j = m.row j
  beside : m'.names = m.names ∧ m'.texts = m.texts ∧ m'.supply = m.supply

/-! ### Words -/

/-- Which bits of the word of some booleans are set. -/
theorem testBit_bitsOf_iff (rows : List Row) (k : Nat) :
    (bitsOf rows).testBit k = true ↔ ∃ b, rows[k]? = some b ∧ b.value = .bool true := by
  cases h : rows[k]? with
  | none =>
    have hlt : bitsOf rows < 2 ^ k :=
      Nat.lt_of_lt_of_le (bitsOf_lt rows) (Nat.pow_le_pow_right (by decide) (List.getElem?_eq_none_iff.mp h))
    simp [Nat.testBit_lt_two_pow hlt]
  | some b =>
    rw [testBit_bitsOf h, decide_eq_true_iff]
    simp

/-- The word of a group of booleans, and its bits. -/
theorem exists_word (start : Nat) {g : Nat} (h : g < bitSetCount bools.length) : ∃ first word,
    bools[32 * g]? = some first ∧ (bitSetRows (bitSetCount bools.length) start bools)[g]? =
      some ⟨.bitSet, first.name, none, some (start + 32 * g), min (32 * g + 32) bools.length - 32 * g,
        .bitSet word⟩ ∧
    ∀ k, word.toNat.testBit k = true ↔ k < 32 ∧ ∃ b, bools[32 * g + k]? = some b ∧ b.value = .bool true := by
  have hfirst : 32 * g < bools.length := by
    unfold bitSetCount boolsPerWord at h
    omega
  have hhead : ((bools.drop (32 * g)).take 32).head? = some bools[32 * g] := by
    rw [List.head?_eq_getElem?, List.getElem?_take_of_lt (by decide), List.getElem?_drop, Nat.add_zero,
      List.getElem?_eq_getElem hfirst]
  have hlength : ((bools.drop (32 * g)).take 32).length = min (32 * g + 32) bools.length - 32 * g := by
    rw [List.length_take, List.length_drop]
    omega
  refine ⟨bools[32 * g], UInt32.ofNat (bitsOf ((bools.drop (32 * g)).take 32)), List.getElem?_eq_getElem hfirst, ?_,
    fun k => ?_⟩
  · rw [getElem?_bitSetRows h, bitSetRow]
    simp only [boolsPerWord, hhead, hlength, Option.map_some, Option.getD_some]
  · rw [UInt32.toNat_ofNat', Nat.testBit_mod_two_pow, Bool.and_eq_true, decide_eq_true_iff, testBit_bitsOf_iff]
    refine and_congr_right fun hk => ?_
    rw [List.getElem?_take_of_lt hk, List.getElem?_drop]

/-! ### The table -/

/-- The rows in the range of an object whose booleans have been folded: its fields, and behind them what is left
over. -/
def foldedRange (start : Nat) (l : List Row) : List Row :=
  foldedFields start l ++ (l.filter (·.kind = .bool)).drop (bitSetCount (l.filter (·.kind = .bool)).length)

theorem length_foldedFields (start : Nat) (l : List Row) : (foldedFields start l).length =
    (l.filter (·.kind ≠ .bool)).length + bitSetCount (l.filter (·.kind = .bool)).length := by
  rw [foldedFields, List.length_append, length_bitSetRows]

theorem length_foldedRange (start : Nat) (l : List Row) : (foldedRange start l).length = l.length := by
  have hlength := length_folded l
  have hle := bitSetCount_le (l.filter (·.kind = .bool)).length
  rw [foldedRange, List.length_append, length_foldedFields, List.length_drop]
  omega

/-- No field is a boolean any more. -/
theorem filter_foldedFields (start : Nat) (l : List Row) : (foldedFields start l).filter (·.kind = .bool) = [] := by
  refine List.filter_eq_nil_iff.mpr fun r hr hbool => ?_
  rcases List.mem_append.mp hr with hr | hr
  · exact of_decide_eq_true (List.mem_filter.mp hr).2 (of_decide_eq_true hbool)
  · rw [(bitSetRows_spec hr).1] at hbool
    cases hbool

theorem toArray_replaced (m : Model) (span : Span) (l added : List Row) : m.rows.extract 0 span.start ++ l.toArray ++
    m.rows.extract span.stop m.size ++ added.toArray = (m.replaced span l added).toArray := by
  have hback : (m.rows.toList.drop span.stop).take (m.size - span.stop) = m.rows.toList.drop span.stop :=
    List.take_of_length_le (by rw [List.length_drop, length_rows])
  apply Array.toList_inj.mp
  simp only [Array.toList_append, Array.toList_extract, List.extract_eq_take_drop, Nat.sub_zero, List.drop_zero, hback,
    replaced]

theorem row_setCount_of_ne (m : Model) (count : Nat) (h : j ≠ i) : (m.setCount i count).row j = m.row j := by
  have hget : (m.rows.modify i ({ · with count := count }))[j]? = m.rows[j]? := by
    rw [Array.getElem?_modify, if_neg h.symm]
  exact congrArg indexed hget

theorem row_setCount_self (h : m.row i = .ok row) (count : Nat) :
    (m.setCount i count).row i = .ok { row with count := count } := by
  refine indexed_eq_ok.mpr ?_
  show (m.rows.modify i ({ · with count := count }))[i]? = _
  rw [Array.getElem?_modify, if_pos rfl, indexed_eq_ok.mp h]
  rfl

/-- The model with the booleans of an object folded that has some. -/
def foldedTable (m : Model) (i : Nat) (owner : Row) (span : Span) : Model :=
  (m.withRows (m.replaced span (foldedRange m.size (m.fields owner)) ((m.fields owner).filter (·.kind = .bool)))).setCount
    i (foldedFields m.size (m.fields owner)).length

namespace HasRange

variable (range : m.HasRange i owner span)

include range

theorem mapM_row : span.mapM m.row = .ok (m.fields owner) := by
  have hlength := range.length_fields
  have hrow : ∀ k (hk : k < span.length), m.row (span.start + k) = .ok (m.fields owner)[k] := fun k hk =>
    range.row_field (List.getElem?_eq_getElem (hlength.symm ▸ hk))
  obtain ⟨l, hl⟩ := Span.exists_mapM (s := span) (f := m.row) fun k hk => ⟨_, hrow k hk⟩
  obtain ⟨hcount, hget⟩ := Span.mapM_eq_ok hl
  rw [hl, range.fields_eq hcount hget]

/-- Without booleans nothing is folded. -/
theorem foldBooleans_of_nil (none : (m.fields owner).filter (·.kind = .bool) = []) : m.foldBooleans i = .ok m := by
  unfold foldBooleans
  simp [range.members_eq, range.mapM_row, none, bind, Except.bind, pure, Except.pure]

/-- What folding makes of the table. -/
theorem foldBooleans_of_some (some : (m.fields owner).filter (·.kind = .bool) ≠ []) :
    m.foldBooleans i = .ok (m.foldedTable i owner span) := by
  unfold foldBooleans
  rw [range.members_eq]
  simp only [bind, Except.bind, range.mapM_row, List.isEmpty_iff, if_neg some, pure, Except.pure, toArray_replaced]
  rw [foldedTable, length_foldedFields]
  rfl

theorem length_range : (foldedRange m.size (m.fields owner)).length = span.length :=
  (length_foldedRange _ _).trans range.length_fields

theorem size_foldedTable : (m.foldedTable i owner span).size =
    m.size + ((m.fields owner).filter (·.kind = .bool)).length := by
  rw [← range.length_replaced range.length_range]
  exact Array.size_modify

theorem row_owner : (m.foldedTable i owner span).row i =
    .ok { owner with count := (foldedFields m.size (m.fields owner)).length } := by
  refine row_setCount_self (row_eq_ok.mpr ?_) _
  rw [toList_withRows, range.getElem?_replaced_outside range.length_range range.apart
    (lt_size_of_row range.object.1)]
  exact row_eq_ok.mp range.object.1

theorem row_range (hr : (foldedRange m.size (m.fields owner))[k]? = some row) :
    (m.foldedTable i owner span).row (span.start + k) = .ok row := by
  have hstop : span.stop = span.start + span.length := rfl
  have hapart := range.apart
  have hlength := range.length_range
  have hk := (List.getElem?_eq_some_iff.mp hr).1
  rw [foldedTable, row_setCount_of_ne _ _ (by omega), row_eq_ok, toList_withRows,
    range.getElem?_replaced hlength (by omega), hr]

theorem row_copy (hr : ((m.fields owner).filter (·.kind = .bool))[k]? = some row) :
    (m.foldedTable i owner span).row (m.size + k) = .ok row := by
  have hi := lt_size_of_row range.object.1
  rw [foldedTable, row_setCount_of_ne _ _ (by omega), row_eq_ok, toList_withRows,
    range.getElem?_replaced_added range.length_range, hr]

theorem row_outside (hj : j < m.size) (hne : j ≠ i) (outside : j < span.start ∨ span.stop ≤ j) :
    (m.foldedTable i owner span).row j = m.row j := by
  rw [foldedTable, row_setCount_of_ne _ _ hne, row, row, ← Array.getElem?_toList, toList_withRows,
    range.getElem?_replaced_outside range.length_range outside hj, Array.getElem?_toList]

theorem length_foldedFields_le : (foldedFields m.size (m.fields owner)).length ≤ span.length := by
  rw [← range.length_range, foldedRange, List.length_append]
  exact Nat.le_add_right _ _

/-- An object with booleans has a start, and owns as many rows as it says. -/
theorem start_count (some : (m.fields owner).filter (·.kind = .bool) ≠ []) :
    owner.start = Option.some span.start ∧ owner.count = span.length := by
  refine range_of_members range.object.2 range.members ?_
  rw [← range.length_fields]
  exact Nat.lt_of_lt_of_le (List.length_pos_of_ne_nil some) (List.length_filter_le _ _)

/-- The object whose booleans have been folded has a range that lies inside of its former one. -/
theorem foldedTable (some : (m.fields owner).filter (·.kind = .bool) ≠ []) :
    (m.foldedTable i owner span).HasRange i { owner with count := (foldedFields m.size (m.fields owner)).length }
      ⟨span.start, (foldedFields m.size (m.fields owner)).length⟩ := by
  have hstop : span.stop = span.start + span.length := rfl
  have hstop' : Span.stop ⟨span.start, (foldedFields m.size (m.fields owner)).length⟩ =
      span.start + (foldedFields m.size (m.fields owner)).length := rfl
  have hle := range.length_foldedFields_le
  have hinside := range.inside
  obtain ⟨hstart, hcount⟩ := range.start_count some
  have hmembers := range.members
  rw [Row.members_of_start hstart (by rw [range.object.2]; decide), Row.ownedCount_of_object range.object.2,
    spanFrom_eq_ok] at hmembers
  refine ⟨⟨range.row_owner, range.object.2⟩, Row.members_of_object range.object.2 hstart ?_, ?_, ?_⟩
  · exact Nat.lt_of_le_of_lt (Nat.add_le_add_left (hle.trans_eq hcount.symm) _) hmembers.1
  · rw [range.size_foldedTable]
    omega
  · exact range.apart.imp_right fun hbehind => by omega

theorem fields_foldedTable (some : (m.fields owner).filter (·.kind = .bool) ≠ []) :
    (m.foldedTable i owner span).fields { owner with count := (foldedFields m.size (m.fields owner)).length } =
      foldedFields m.size (m.fields owner) :=
  (range.foldedTable some).fields_eq rfl fun _ _ hr => range.row_range (by
    rw [foldedRange, List.getElem?_append_left (List.getElem?_eq_some_iff.mp hr).1, hr])

end HasRange

theorem HasRange.foldedExactly_of_nil (range : m.HasRange i owner span) :
    m.FoldedExactly m i owner span (m.fields owner) [] where
  total := range.length_fields
  none _ := rfl
  other _ _ := range.row_field
  owner hsome := absurd rfl hsome
  word _ hg := absurd hg (Nat.not_lt_zero _)
  copy _ _ hr := by cases hr
  size := rfl
  outside _ _ _ _ := rfl
  beside := ⟨rfl, rfl, rfl⟩

theorem HasRange.foldedExactly (range : m.HasRange i owner span)
    (some : (m.fields owner).filter (·.kind = .bool) ≠ []) :
    m.FoldedExactly (m.foldedTable i owner span) i owner span ((m.fields owner).filter (·.kind ≠ .bool))
      ((m.fields owner).filter (·.kind = .bool)) where
  total := (length_folded _).trans range.length_fields
  none hnone := absurd hnone some
  other k r hr := by
    refine range.row_range ?_
    rw [foldedRange, foldedFields, List.append_assoc, List.getElem?_append_left (List.getElem?_eq_some_iff.mp hr).1, hr]
  owner _ := by
    rw [range.row_owner, length_foldedFields]
    rfl
  word g hg := by
    obtain ⟨first, word, hfirst, hword, hbits⟩ := exists_word m.size hg
    refine ⟨first, word, hfirst, ?_, hbits⟩
    rw [Nat.add_assoc]
    refine range.row_range ?_
    rw [foldedRange, foldedFields, List.append_assoc, List.getElem?_append_right (Nat.le_add_right _ _),
      Nat.add_sub_cancel_left, List.getElem?_append_left (List.getElem?_eq_some_iff.mp hword).1, hword]
  copy _ _ := range.row_copy
  size := range.size_foldedTable
  outside _ hj hne hout := range.row_outside hj hne hout
  beside := ⟨rfl, rfl, rfl⟩

/-- Folding the booleans of an object loses none of them and takes none twice, however many there are.  Another time
it changes nothing. -/
theorem foldBooleans_exact (range : m.HasRange i owner span) : ∃ m', m.foldBooleans i = .ok m' ∧
    m.FoldedExactly m' i owner span ((m.fields owner).filter (·.kind ≠ .bool))
      ((m.fields owner).filter (·.kind = .bool)) ∧ m'.foldBooleans i = .ok m' := by
  by_cases hnone : (m.fields owner).filter (·.kind = .bool) = []
  · have hothers : (m.fields owner).filter (·.kind ≠ .bool) = m.fields owner :=
      List.filter_eq_self.mpr fun r hr => decide_eq_true fun hbool =>
        List.filter_eq_nil_iff.mp hnone r hr (decide_eq_true hbool)
    have hsame := range.foldBooleans_of_nil hnone
    rw [hnone, hothers]
    exact ⟨m, hsame, range.foldedExactly_of_nil, hsame⟩
  · refine ⟨_, range.foldBooleans_of_some hnone, range.foldedExactly hnone, ?_⟩
    refine (range.foldedTable hnone).foldBooleans_of_nil ?_
    rw [range.fields_foldedTable hnone]
    exact filter_foldedFields _ _

/-- An object with 33 booleans between two other fields, of which the first, the 32nd and the last hold true. -/
def manyBooleans : Model :=
  Model.empty.withRows (⟨.object, "owner", some "Owner", some 1, 35, .present⟩ ::
    ⟨.uint8, "tag", none, none, 1, .scalar (.u8 1)⟩ ::
    (List.range 33).map (fun k => ⟨.bool, if k = 0 then "first" else if k = 32 then "last" else "middle", none, none, 1,
      .bool (k = 0 || k = 31 || k = 32)⟩) ++
    [⟨.uint16, "size", none, none, 1, .scalar (.u16 2)⟩, ⟨.bool, "behind", none, none, 1, .bool true⟩])

/-- One word is full, the other one has a single bit, and a boolean behind the range is none of the object's. -/
theorem foldBooleans_exact_manyBooleans : ∃ m', manyBooleans.foldBooleans 0 = .ok m' ∧
    manyBooleans.FoldedExactly m' 0 ⟨.object, "owner", some "Owner", some 1, 35, .present⟩ ⟨1, 35⟩
      ((manyBooleans.fields ⟨.object, "owner", some "Owner", some 1, 35, .present⟩).filter (·.kind ≠ .bool))
      ((manyBooleans.fields ⟨.object, "owner", some "Owner", some 1, 35, .present⟩).filter (·.kind = .bool)) ∧
    m'.foldBooleans 0 = .ok m' ∧
    m'.rows.toList.take 5 = [⟨.object, "owner", some "Owner", some 1, 4, .present⟩,
      ⟨.uint8, "tag", none, none, 1, .scalar (.u8 1)⟩, ⟨.uint16, "size", none, none, 1, .scalar (.u16 2)⟩,
      ⟨.bitSet, "first", none, some 37, 32, .bitSet 0x80000001⟩,
      ⟨.bitSet, "last", none, some 69, 1, .bitSet 1⟩] ∧ m'.size = 70 := by
  have hrange : manyBooleans.HasRange 0 ⟨.object, "owner", some "Owner", some 1, 35, .present⟩ ⟨1, 35⟩ :=
    ⟨⟨rfl, rfl⟩, rfl, by decide, by decide⟩
  have hcheck : (manyBooleans.foldBooleans 0).toOption.any (fun m' =>
      m'.rows.toList.take 5 = [⟨.object, "owner", some "Owner", some 1, 4, .present⟩,
        ⟨.uint8, "tag", none, none, 1, .scalar (.u8 1)⟩, ⟨.uint16, "size", none, none, 1, .scalar (.u16 2)⟩,
        ⟨.bitSet, "first", none, some 37, 32, .bitSet 0x80000001⟩,
        ⟨.bitSet, "last", none, some 69, 1, .bitSet 1⟩] && m'.size = 70) = true := by
    decide +kernel
  obtain ⟨m', hfold, hexact, hagain⟩ := foldBooleans_exact hrange
  rw [hfold] at hcheck
  obtain ⟨hrows, hsize⟩ := Bool.and_eq_true_iff.mp hcheck
  exact ⟨m', hfold, hexact, hagain, of_decide_eq_true hrows, of_decide_eq_true hsize⟩

end Model

end ObjectPack
