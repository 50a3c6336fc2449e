import ObjectPack.Proofs.Model.Track

/-!
# Where folding moves rows

Folding the booleans of an object moves its other fields to the front of its range, in their order, and
copies of the booleans behind the table, where the words own them (`Model.foldBooleans_tracks`).  What
comes before a field among its like tells where it goes (`rank`).
-/

namespace ObjectPack

/-! ### Places in filtered lists -/

section Rank

variable {α : Type} {p : α → Bool} {l : List α} {a : α} {k k' x : Nat}

/-- How many elements before a place are chosen. -/
def rank (p : α → Bool) (l : List α) (k : Nat) : Nat := (l.take k).countP p

theorem rank_cons (p : α → Bool) (a : α) (l : List α) (k : Nat) :
    rank p (a :: l) (k + 1) = rank p l k + if p a then 1 else 0 := by
  rw [rank, List.take_succ_cons, List.countP_cons]
  rfl

/-- An element that is chosen stands at its rank among those that are. -/
theorem filter_rank (h : l[k]? = some a) (chosen : p a = true) :
    (l.filter p)[rank p l k]? = some a := by
  induction l generalizing k with
  | nil => cases h
  | cons b l ih =>
    cases k with
    | zero =>
      obtain rfl := Option.some.inj h
      rw [List.filter_cons_of_pos chosen]
      rfl
    | succ k =>
      rw [rank_cons]
      by_cases hb : p b = true
      · rw [List.filter_cons_of_pos hb, if_pos hb, List.getElem?_cons_succ]
        exact ih h
      · rw [List.filter_cons_of_neg hb, if_neg hb]
        exact ih h

/-- Whatever stands among those that are chosen stands there by its rank. -/
theorem exists_rank (h : (l.filter p)[x]? = some a) :
    ∃ k, l[k]? = some a ∧ p a = true ∧ rank p l k = x := by
  induction l generalizing x with
  | nil => cases h
  | cons b l ih =>
    by_cases hb : p b = true
    · rw [List.filter_cons_of_pos hb] at h
      cases x with
      | zero =>
        obtain rfl := Option.some.inj h
        exact ⟨0, rfl, hb, rfl⟩
      | succ x =>
        obtain ⟨k, hk, hchosen, hrank⟩ := ih h
        exact ⟨k + 1, hk, hchosen, by rw [rank_cons, hrank, if_pos hb]⟩
    · rw [List.filter_cons_of_neg hb] at h
      obtain ⟨k, hk, hchosen, hrank⟩ := ih h
      exact ⟨k + 1, hk, hchosen, by rw [rank_cons, hrank, if_neg hb, Nat.add_zero]⟩

/-- Different elements that are chosen have different ranks. -/
theorem rank_lt (h : l[k]? = some a) (chosen : p a = true) (hlt : k < k') : rank p l k < rank p l k' := by
  induction l generalizing k k' with
  | nil => cases h
  | cons b l ih =>
    obtain ⟨k', rfl⟩ := Nat.exists_eq_succ_of_ne_zero (Nat.ne_of_gt (Nat.lt_of_le_of_lt (Nat.zero_le k) hlt))
    rw [rank_cons]
    cases k with
    | zero =>
      obtain rfl := Option.some.inj h
      rw [if_pos chosen]
      exact Nat.lt_add_left _ (Nat.lt_succ_self 0)
    | succ k =>
      rw [rank_cons]
      exact Nat.add_lt_add_right (ih h (Nat.lt_of_succ_lt_succ hlt)) _

theorem rank_inj {b : α} (h : l[k]? = some a) (chosen : p a = true) (h' : l[k']? = some b)
    (chosen' : p b = true) (same : rank p l k = rank p l k') : k = k' := by
  rcases Nat.lt_trichotomy k k' with hlt | rfl | hlt
  · exact absurd same (Nat.ne_of_lt (rank_lt h chosen hlt))
  · rfl
  · exact absurd same.symm (Nat.ne_of_lt (rank_lt h' chosen' hlt))

end Rank

namespace Model

/-! ### Bits -/

theorem testBit_bitsOf {rows : List Row} {k : Nat} {r : Row} (h : rows[k]? = some r) :
    (bitsOf rows).testBit k = decide (r.value = .bool true) := by
  induction rows generalizing k with
  | nil => cases h
  | cons first rest ih =>
    rw [bitsOf]
    cases k with
    | zero =>
      obtain rfl := Option.some.inj h
      rw [Nat.testBit_zero]
      split
      · rename_i htrue
        rw [decide_eq_true htrue]
        exact decide_eq_true (by omega)
      · rename_i hfalse
        rw [decide_eq_false hfalse]
        exact decide_eq_false (by omega)
    | succ k =>
      rw [Nat.testBit_succ]
      have hhalf : ((if first.value = .bool true then 1 else 0) + 2 * bitsOf rest) / 2 = bitsOf rest := by
        split <;> omega
      rw [hhalf]
      exact ih h

theorem getElem?_bitSetRows {groups start g : Nat} {bools : List Row} (h : g < groups) :
    (bitSetRows groups start bools)[g]? =
      some (bitSetRow (start + boolsPerWord * g) ((bools.drop (boolsPerWord * g)).take boolsPerWord)) := by
  induction groups generalizing start bools g with
  | zero => cases h
  | succ groups ih =>
    cases g with
    | zero => rfl
    | succ g =>
      have hstep : boolsPerWord * (g + 1) = boolsPerWord + boolsPerWord * g := by
        rw [Nat.mul_succ, Nat.add_comm]
      rw [bitSetRows, List.getElem?_cons_succ, ih (Nat.lt_of_succ_lt_succ h), List.drop_drop, hstep,
        Nat.add_assoc]

/-- Every boolean that is folded is a bit of one of the words. -/
theorem bitSetRows_holdsBit (start : Nat) {y : Nat} {bools : List Row} {r : Row} (h : bools[y]? = some r) :
    ∃ (g : Nat) (w : Row), (bitSetRows (bitSetCount bools.length) start bools)[g]? = some w ∧
      w.HoldsBit (start + y) (decide (r.value = .bool true)) := by
  have hlt := (List.getElem?_eq_some_iff.mp h).1
  have hmod := Nat.mod_lt y (show 0 < boolsPerWord by decide)
  have hdiv := Nat.div_add_mod y boolsPerWord
  have hgroup : y / boolsPerWord < bitSetCount bools.length := by
    unfold bitSetCount boolsPerWord
    omega
  refine ⟨y / boolsPerWord, _, getElem?_bitSetRows hgroup, rfl, _, _, rfl, ?_, ?_, rfl, ?_⟩
  · omega
  · show start + y < start + boolsPerWord * (y / boolsPerWord) + List.length _
    rw [List.length_take, List.length_drop]
    omega
  · have hindex : start + y - (start + boolsPerWord * (y / boolsPerWord)) = y % boolsPerWord := by
      omega
    rw [hindex, UInt32.toNat_ofNat', Nat.testBit_mod_two_pow]
    rw [decide_eq_true (show y % boolsPerWord < 32 from hmod), Bool.true_and]
    apply testBit_bitsOf
    rw [List.getElem?_take_of_lt hmod, List.getElem?_drop, hdiv]
    exact h

/-! ### One object -/

/-- Where the rows of a table of `size` rows go when the booleans among the fields from `start` on are
folded. -/
def foldedPlace (start size : Nat) (fields : List Row) (j : Nat) : Nat :=
  if j < start then j
  else match fields[j - start]? with
    | some r =>
      if r.kind = .bool then size + rank (·.kind = .bool) fields (j - start)
      else start + rank (·.kind ≠ .bool) fields (j - start)
    | none => j

variable {m m' : Model} {top i j : Nat} {owner r : Row} {before fields behind : List Row}

theorem foldedPlace_field {start size x : Nat} (h : fields[x]? = some r) (kind : r.kind ≠ .bool) :
    foldedPlace start size fields (start + x) = start + rank (·.kind ≠ .bool) fields x := by
  rw [foldedPlace, if_neg (by omega), Nat.add_sub_cancel_left, h]
  exact if_neg kind

theorem foldedPlace_bool {start size x : Nat} (h : fields[x]? = some r) (kind : r.kind = .bool) :
    foldedPlace start size fields (start + x) = size + rank (·.kind = .bool) fields x := by
  rw [foldedPlace, if_neg (by omega), Nat.add_sub_cancel_left, h]
  exact if_pos kind

/-- Counting what is chosen by its index. -/
theorem countP_indices {α : Type} (p : α → Bool) (l : List α) :
    (List.range l.length).countP (fun x => l[x]?.any p) = l.countP p := by
  induction l with
  | nil => rfl
  | cons a l ih =>
    rw [List.length_cons, List.range_succ_eq_map, List.countP_cons, List.countP_map, List.countP_cons,
      ← ih]
    rfl

namespace Folds

theorem foldedPlace_outside (h : m.Folds m' i owner before fields behind) (outside : ¬ owner.Owns j) :
    foldedPlace before.length m.size fields j = j := by
  have hrange : ¬ (before.length ≤ j ∧ j < before.length + fields.length) :=
    fun hin => outside ((Rearranges.owns_iff h j).mpr hin)
  unfold foldedPlace
  split
  · rfl
  · rw [List.getElem?_eq_none (by omega)]

/-- The place of a field. -/
theorem exists_field (h : m.Folds m' i owner before fields behind) (owns : owner.Owns j) :
    ∃ x r, j = before.length + x ∧ fields[x]? = some r ∧ m.row j = .ok r := by
  obtain ⟨hlow, hhigh⟩ := (Rearranges.owns_iff h j).mp owns
  obtain ⟨x, rfl⟩ := Nat.exists_eq_add_of_le hlow
  have hx : x < fields.length := by omega
  exact ⟨x, fields[x], rfl, List.getElem?_eq_getElem hx, Rearranges.row_field h hx⟩

theorem owns_field (h : m.Folds m' i owner before fields behind) {x : Nat} (hr : fields[x]? = some r) :
    owner.Owns (before.length + x) ∧ m.row (before.length + x) = .ok r := by
  obtain ⟨hx, rfl⟩ := List.getElem?_eq_some_iff.mp hr
  exact ⟨(Rearranges.owns_iff h _).mpr (by omega), Rearranges.row_field h hx⟩

theorem boolCount_eq (h : m.Folds m' i owner before fields behind) :
    m.boolCount owner = (fields.filter (·.kind = .bool)).length := by
  rw [boolCount, h.start, h.count, Option.elim_some, ← List.countP_eq_length_filter, ← countP_indices _ fields,
    List.range'_eq_map_range, List.countP_map]
  apply List.countP_congr
  intro x hx
  have hx := List.mem_range.mp hx
  rw [Function.comp_apply, isBool_eq (Rearranges.row_field h hx), List.getElem?_eq_getElem hx]
  rfl

/-- The object afterwards. -/
theorem foldedRow_eq (h : m.Folds m' i owner before fields behind) :
    m.foldedRow owner = Rearranges.shrunk owner (fields.filter (·.kind ≠ .bool))
      (bitSetRows (bitSetCount (fields.filter (·.kind = .bool)).length) m.size
        (fields.filter (·.kind = .bool))) := by
  have hlength := length_folded fields
  rw [foldedRow, if_pos h.kind, foldedCount, h.boolCount_eq, h.count, ← hlength, Nat.add_sub_cancel]
  rw [Rearranges.shrunk, List.length_append, length_bitSetRows]

theorem owns_foldedRow (h : m.Folds m' i owner before fields behind) (j : Nat) :
    (m.foldedRow owner).Owns j ↔ before.length ≤ j ∧ j < before.length +
      ((fields.filter (·.kind ≠ .bool)).length + bitSetCount (fields.filter (·.kind = .bool)).length) := by
  rw [h.foldedRow_eq, Rearranges.owns_shrunk h, List.length_append, length_bitSetRows]

/-- What stands in the range of the object afterwards. -/
theorem row_range (h : m.Folds m' i owner before fields behind) (wellFormed : m.WellFormed top) {y : Nat}
    (hr : (fields.filter (·.kind ≠ .bool) ++
      bitSetRows (bitSetCount (fields.filter (·.kind = .bool)).length) m.size
        (fields.filter (·.kind = .bool)))[y]? = some r) : m'.row (before.length + y) = .ok r := by
  have hy := (List.getElem?_eq_some_iff.mp hr).1
  have hlength := h.length
  rw [List.length_append] at hlength
  have howns : owner.Owns (before.length + y) := (Rearranges.owns_iff h _).mpr (by omega)
  have hne : before.length + y ≠ i := fun heq =>
    wellFormed.notItself i owner h.row (Rearranges.kind_ne h) (heq ▸ howns)
  rw [Rearranges.row_of_ne h hne, Rearranges.getElem?_range h (by omega), List.getElem?_append_left hy]
  exact hr

theorem row_field (h : m.Folds m' i owner before fields behind) (wellFormed : m.WellFormed top)
    {y : Nat} (hr : (fields.filter (·.kind ≠ .bool))[y]? = some r) : m'.row (before.length + y) = .ok r := by
  apply h.row_range wellFormed
  rwa [List.getElem?_append_left (List.getElem?_eq_some_iff.mp hr).1]

theorem row_copy (h : m.Folds m' i owner before fields behind) {y : Nat}
    (hr : (fields.filter (·.kind = .bool))[y]? = some r) : m'.row (m.size + y) = .ok r := by
  have hrows := congrArg List.length h.rows
  have hlength := h.length
  have hsize : m.size = (before ++ (fields.filter (·.kind ≠ .bool) ++
      bitSetRows (bitSetCount (fields.filter (·.kind = .bool)).length) m.size
        (fields.filter (·.kind = .bool)) ++ (fields.filter (·.kind = .bool)).drop
          (bitSetCount (fields.filter (·.kind = .bool)).length)) ++ behind).length := by
    rw [List.length_append, List.length_append, hlength, ← List.length_append, ← List.length_append,
      ← hrows]
    rfl
  have hne : m.size + y ≠ i := by
    have hlt := lt_size_of_row h.row
    omega
  rw [Rearranges.row_of_ne h hne, List.getElem?_append_right (by omega), ← hsize,
    Nat.add_sub_cancel_left]
  exact hr

/-- Every row of the table goes to its place. -/
theorem row_place (h : m.Folds m' i owner before fields behind) (wellFormed : m.WellFormed top)
    (hrow : m.row j = .ok r) (hne : j ≠ i) :
    m'.row (foldedPlace before.length m.size fields j) = .ok r := by
  by_cases howns : owner.Owns j
  · obtain ⟨x, r', rfl, hr, hrow'⟩ := h.exists_field howns
    obtain rfl := Except.ok.inj (hrow'.symm.trans hrow)
    by_cases hkind : r'.kind = .bool
    · rw [foldedPlace_bool hr hkind]
      exact h.row_copy (filter_rank hr (decide_eq_true hkind))
    · rw [foldedPlace_field hr hkind]
      exact h.row_field wellFormed (filter_rank hr (decide_eq_true hkind))
  · rw [h.foldedPlace_outside howns]
    exact (Rearranges.row_outside h howns hne (lt_size_of_row hrow)).mpr hrow

/-- Where a row goes, by where it stands. -/
theorem foldedPlace_cases (h : m.Folds m' i owner before fields behind) (j : Nat) :
    (¬ owner.Owns j ∧ foldedPlace before.length m.size fields j = j) ∨
    (∃ x r, j = before.length + x ∧ fields[x]? = some r ∧ r.kind ≠ .bool ∧
      foldedPlace before.length m.size fields j = before.length + rank (·.kind ≠ .bool) fields x ∧
      rank (·.kind ≠ .bool) fields x < (fields.filter (·.kind ≠ .bool)).length) ∨
    ∃ x r, j = before.length + x ∧ fields[x]? = some r ∧ r.kind = .bool ∧
      foldedPlace before.length m.size fields j = m.size + rank (·.kind = .bool) fields x := by
  by_cases howns : owner.Owns j
  · obtain ⟨x, r, rfl, hr, -⟩ := h.exists_field howns
    by_cases hkind : r.kind = .bool
    · exact Or.inr (Or.inr ⟨x, r, rfl, hr, hkind, foldedPlace_bool hr hkind⟩)
    · have hrank := filter_rank (p := (·.kind ≠ .bool)) hr (decide_eq_true hkind)
      exact Or.inr (Or.inl ⟨x, r, rfl, hr, hkind, foldedPlace_field hr hkind,
        (List.getElem?_eq_some_iff.mp hrank).1⟩)
  · exact Or.inl ⟨howns, h.foldedPlace_outside howns⟩

theorem foldedPlace_injective (h : m.Folds m' i owner before fields behind) {k : Nat} (hj : j < m.size)
    (hk : k < m.size) (same : foldedPlace before.length m.size fields j =
      foldedPlace before.length m.size fields k) : j = k := by
  have hrange := Rearranges.owns_iff h
  have hlength := length_folded fields
  have hinside : before.length + fields.length ≤ m.size := by
    have hrows := congrArg List.length h.rows
    simp only [List.length_append, Array.length_toList] at hrows
    show _ ≤ m.rows.size
    omega
  rcases h.foldedPlace_cases j with ⟨hout, hp⟩ | ⟨x, r, rfl, hr, hkind, hp, hlt⟩ | ⟨x, r, rfl, hr, hkind, hp⟩ <;>
    rcases h.foldedPlace_cases k with
      ⟨hout', hp'⟩ | ⟨x', r', rfl, hr', hkind', hp', hlt'⟩ | ⟨x', r', rfl, hr', hkind', hp'⟩ <;>
    rw [hp, hp'] at same
  · exact same
  · rw [hrange] at hout
    omega
  · omega
  · rw [hrange] at hout'
    omega
  · rw [rank_inj (p := (·.kind ≠ .bool)) hr (decide_eq_true hkind) hr' (decide_eq_true hkind')
      (Nat.add_left_cancel same)]
  · omega
  · omega
  · omega
  · rw [rank_inj (p := (·.kind = .bool)) hr (decide_eq_true hkind) hr' (decide_eq_true hkind')
      (Nat.add_left_cancel same)]

/-- Words own booleans of the object only. -/
theorem exists_bool (h : m.Folds m' i owner before fields behind) {w : Row} {l : Nat}
    (mem : w ∈ bitSetRows (bitSetCount (fields.filter (·.kind = .bool)).length) m.size
      (fields.filter (·.kind = .bool))) (owns : w.Owns l) :
    ∃ j r, owner.Owns j ∧ m.row j = .ok r ∧ r.kind = .bool ∧
      foldedPlace before.length m.size fields j = l := by
  obtain ⟨hlow, hhigh⟩ := (bitSetRows_spec mem).2.2 l owns
  obtain ⟨y, rfl⟩ := Nat.exists_eq_add_of_le hlow
  have hy : y < (fields.filter (·.kind = .bool)).length := by omega
  obtain ⟨x, hx, hkind, hrank⟩ := exists_rank (List.getElem?_eq_getElem hy)
  obtain ⟨howns, hrow⟩ := h.owns_field hx
  have hbool := of_decide_eq_true hkind
  exact ⟨_, _, howns, hrow, hbool, (foldedPlace_bool hx hbool).trans (by rw [hrank])⟩

/-- The folded object owns its fields that are no booleans, and behind them the words. -/
theorem owned_cases (h : m.Folds m' i owner before fields behind) (wellFormed : m.WellFormed top)
    (owns : (m.foldedRow owner).Owns j) :
    (∃ k r, owner.Owns k ∧ m.row k = .ok r ∧ r.kind ≠ .bool ∧
      foldedPlace before.length m.size fields k = j) ∨
    ∃ w, m'.row j = .ok w ∧ w ∈ bitSetRows (bitSetCount (fields.filter (·.kind = .bool)).length)
      m.size (fields.filter (·.kind = .bool)) := by
  obtain ⟨hlow, hhigh⟩ := (h.owns_foldedRow j).mp owns
  obtain ⟨y, rfl⟩ := Nat.exists_eq_add_of_le hlow
  by_cases hy : y < (fields.filter (·.kind ≠ .bool)).length
  · obtain ⟨x, hx, hkind, hrank⟩ := exists_rank (List.getElem?_eq_getElem hy)
    obtain ⟨howns, hrow⟩ := h.owns_field hx
    have hother := of_decide_eq_true hkind
    exact Or.inl ⟨_, _, howns, hrow, hother, (foldedPlace_field hx hother).trans (by rw [hrank])⟩
  · have hword : y - (fields.filter (·.kind ≠ .bool)).length <
        (bitSetRows (bitSetCount (fields.filter (·.kind = .bool)).length) m.size
          (fields.filter (·.kind = .bool))).length := by
      rw [length_bitSetRows]
      omega
    refine Or.inr ⟨_, h.row_range wellFormed ?_, List.getElem_mem hword⟩
    rw [List.getElem?_append_right (Nat.le_of_not_lt hy)]
    exact List.getElem?_eq_getElem hword

/-- A boolean has its bit in a word that the folded object owns. -/
theorem exists_word (h : m.Folds m' i owner before fields behind) (wellFormed : m.WellFormed top) {x : Nat}
    (hr : fields[x]? = some r) (kind : r.kind = .bool) :
    ∃ j w, (m.foldedRow owner).Owns j ∧ m'.row j = .ok w ∧
      w.HoldsBit (m.size + rank (·.kind = .bool) fields x) (decide (r.value = .bool true)) := by
  obtain ⟨g, w, hw, hbit⟩ := bitSetRows_holdsBit m.size
    (filter_rank (p := (·.kind = .bool)) hr (decide_eq_true kind))
  have hg := (List.getElem?_eq_some_iff.mp hw).1
  rw [length_bitSetRows] at hg
  refine ⟨before.length + ((fields.filter (·.kind ≠ .bool)).length + g), w, ?_, ?_, hbit⟩
  · rw [h.owns_foldedRow]
    omega
  · apply h.row_range wellFormed
    rw [List.getElem?_append_right (Nat.le_add_right _ _), Nat.add_sub_cancel_left]
    exact hw

/-- Folding the booleans of an object tracks its rows. -/
theorem tracks (h : m.Folds m' i owner before fields behind) (wellFormed : m.WellFormed top) :
    Tracks m m' (· = i) (foldedPlace before.length m.size fields) := by
  have hself : ∀ {k o}, m.IsObject k o → k = i → o = owner := by
    rintro k o ho rfl
    exact Except.ok.inj (ho.1.symm.trans h.row)
  exact
    { injective := fun j k hj hk => h.foldedPlace_injective hj hk
      folded := by
        rintro j r hrow rfl
        obtain rfl := Except.ok.inj (hrow.symm.trans h.row)
        rw [h.foldedPlace_outside (wellFormed.notItself j r h.row (Rearranges.kind_ne h)), h.foldedRow_eq]
        exact Rearranges.row_owner h wellFormed
      waiting := fun j r hrow hne => h.row_place wellFormed hrow hne
      still := fun j hnone => h.foldedPlace_outside (hnone i owner ⟨h.row, h.kind⟩ rfl)
      field := by
        intro k o j r ho hk howns hrow hkind
        obtain rfl := hself ho hk
        obtain ⟨x, r', rfl, hr, hrow'⟩ := h.exists_field howns
        obtain rfl := Except.ok.inj (hrow'.symm.trans hrow)
        have hrank := filter_rank (p := (·.kind ≠ .bool)) hr (decide_eq_true hkind)
        have hlt := (List.getElem?_eq_some_iff.mp hrank).1
        rw [foldedPlace_field hr hkind, h.owns_foldedRow]
        omega
      bool := by
        intro k o j r ho hk howns hrow hkind
        obtain rfl := hself ho hk
        obtain ⟨x, r', rfl, hr, hrow'⟩ := h.exists_field howns
        obtain rfl := Except.ok.inj (hrow'.symm.trans hrow)
        rw [foldedPlace_bool hr hkind]
        exact h.exists_word wellFormed hr hkind
      owned := by
        intro k o j ho hk howns
        obtain rfl := hself ho hk
        refine (h.owned_cases wellFormed howns).imp_right ?_
        rintro ⟨w, hrow, hmem⟩
        exact ⟨w, hrow, (bitSetRows_spec hmem).1, fun l hl => h.exists_bool hmem hl⟩
      objects := by
        rintro j r ⟨hrow, hkind⟩
        have hwords : ∀ w ∈ bitSetRows (bitSetCount (fields.filter (·.kind = .bool)).length) m.size
            (fields.filter (·.kind = .bool)), w.kind ≠ .object := fun w hmem heq => by
          rw [(bitSetRows_spec hmem).1] at heq
          cases heq
        -- An object stands outside, is the owner itself or is a field that has been kept.
        cases Rearranges.origin h wellFormed hrow with
        | same outside _ hformer => exact ⟨j, r, ⟨hformer, hkind⟩, h.foldedPlace_outside outside⟩
        | owner self _ =>
          refine ⟨i, owner, ⟨h.row, h.kind⟩, ?_⟩
          rw [self]
          exact h.foldedPlace_outside (wellFormed.notItself i owner h.row (Rearranges.kind_ne h))
        | kept _ inside _ _ =>
          rw [← h.foldedRow_eq] at inside
          rcases h.owned_cases wellFormed inside with ⟨k, r', howns, hrow', -, hplace⟩ | ⟨w, hw, hmem⟩
          · have hne : k ≠ i := fun heq =>
              wellFormed.notItself i owner h.row (Rearranges.kind_ne h) (heq ▸ howns)
            have hmoved := h.row_place wellFormed hrow' hne
            rw [hplace, hrow] at hmoved
            obtain rfl := Except.ok.inj hmoved
            exact ⟨k, r, ⟨hrow', hkind⟩, hplace⟩
          · obtain rfl := Except.ok.inj (hw.symm.trans hrow)
            exact absurd hkind (hwords w hmem)
        | word _ mem => exact absurd hkind (hwords r mem)
        | spare hbool _ =>
          rw [hbool] at hkind
          cases hkind }

end Folds

/-- Folding the booleans of an object tracks its rows. -/
theorem foldBooleans_tracks (wellFormed : m.WellFormed top) (object : m.IsObject i owner)
    (h : m.foldBooleans i = .ok m') : ∃ place, Tracks m m' (· = i) place := by
  rcases foldBooleans_folds wellFormed object.1 object.2 h with ⟨rfl, hnone⟩ | ⟨_, _, _, hfolds⟩
  · refine ⟨id, .refl wellFormed ?_⟩
    rintro k o j r ho rfl howns hrow
    obtain rfl := Except.ok.inj (ho.1.symm.trans object.1)
    exact hnone j r howns hrow
  · exact ⟨_, Folds.tracks hfolds wellFormed⟩

end Model

end ObjectPack
