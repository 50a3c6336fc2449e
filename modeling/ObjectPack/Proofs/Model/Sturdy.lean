import ObjectPack.Proofs.Model.Sort

/-!
# Layouts can be solved

Folding and sorting look rows up by index and compute alignments.  Neither meets a fault where what is looked up
behind the rows of a model is there (`Model.Sturdy`), and both keep it so (`Model.exists_solve`): words of
booleans own copies that have been added, and all other rows keep their ranges or own fewer rows.
-/

namespace ObjectPack

open Outcome

/-! ### Sturdy rows -/

/-- Whether what is looked up behind a row is there: the rows that it owns or holds lie among the first `first`
rows of a table, or, where these are copies of booleans, among all of its `n` rows; texts are in a pool; and
custom values are of an allowed sort. -/
structure Row.Sturdy (allowed : CustomStruct → Prop) (texts : TextPool) (first n : Nat) (r : Row) :
    Prop where
  custom : ∀ c, r.value = .struct c → allowed c
  object : r.kind = .object → ∀ start, r.start = some start → start + r.count ≤ first
  collection : r.kind = .array ∨ r.kind = .dictionary →
    ∃ start, r.start = some start ∧ start + r.heldCount ≤ first
  word : r.kind = .bitSet → ∃ start, r.start = some start ∧ start + r.count ≤ n
  text : r.kind = .string → r.value = .present →
    ∃ index text, r.start = some index ∧ texts.entry index = .ok text
  root : ∀ s, r.value = .dataUnit s → ∃ root, r.start = some root
  typed : r.kind = .enum ∨ r.kind = .struct ∨ r.kind = .object ∨ r.kind = .dataUnit →
    ∃ name, r.typeName = some name

/-- Whether all rows of a model are sturdy. -/
def Model.Sturdy (m : Model) (allowed : CustomStruct → Prop) (first : Nat) : Prop :=
  ∀ i r, m.row i = .ok r → r.Sturdy allowed m.texts first m.size

/-- Whether every row of a custom value that some row owns has its value. -/
def Model.Filled (m : Model) : Prop :=
  ∀ i j owner row, m.row i = .ok owner → owner.Owns j → m.row j = .ok row → row.kind = .struct →
    row.value ≠ .null

namespace Row.Sturdy

variable {allowed : CustomStruct → Prop} {texts : TextPool} {first n n' : Nat} {r : Row}

theorem mono (h : r.Sturdy allowed texts first n) (hle : n ≤ n') : r.Sturdy allowed texts first n' where
  custom := h.custom
  object := h.object
  collection := h.collection
  word kind := by
    obtain ⟨start, hstart, hinside⟩ := h.word kind
    exact ⟨start, hstart, Nat.le_trans hinside hle⟩
  text := h.text
  root := h.root
  typed := h.typed

/-- An object that owns fewer rows is sturdy still. -/
theorem fewer (h : r.Sturdy allowed texts first n) (kind : r.kind = .object) {count : Nat}
    (hle : count ≤ r.count) : Row.Sturdy allowed texts first n { r with count := count } where
  custom := h.custom
  object _ start hstart := Nat.le_trans (Nat.add_le_add_left hle start) (h.object kind start hstart)
  collection hkind := by
    rw [kind] at hkind
    rcases hkind with hkind | hkind <;> cases hkind
  word hkind := by cases kind.symm.trans hkind
  text hkind := by cases kind.symm.trans hkind
  root := h.root
  typed := h.typed

/-- Booleans and their words are sturdy where the words own rows that are there. -/
theorem of_bools (fits : r.Fits) (kind : r.kind = .bool ∨ r.kind = .bitSet)
    (word : r.kind = .bitSet → ∃ start, r.start = some start ∧ start + r.count ≤ n) :
    r.Sturdy allowed texts first n := by
  have hkinds : ∀ kind', kind' = r.kind → kind' = .bool ∨ kind' = .bitSet := fun _ h => h ▸ kind
  refine ⟨fun c hvalue => ?_, fun h => ?_, fun h => ?_, word, fun h => ?_, fun s hvalue => ?_,
    fun h => ?_⟩
  · rw [Fits, hvalue] at fits
    exact absurd (hkinds _ fits.symm) (by decide)
  · exact absurd (hkinds _ h.symm) (by decide)
  · rcases h with h | h <;> exact absurd (hkinds _ h.symm) (by decide)
  · exact absurd (hkinds _ h.symm) (by decide)
  · rw [Fits, hvalue] at fits
    exact absurd (hkinds _ fits.symm) (by decide)
  · rcases h with h | h | h | h <;> exact absurd (hkinds _ h.symm) (by decide)

end Row.Sturdy

namespace Model

variable {m m' m₁ : Model} {top i first : Nat} {owner row : Row} {allowed : CustomStruct → Prop}

/-! ### Folding -/

/-- The range of an object is one. -/
theorem exists_members (kind : owner.kind = .object)
    (range : ∀ start, owner.start = some start → start + owner.count < indexLimit) :
    ∃ span, owner.members = .ok span := by
  cases hstart : owner.start with
  | none => exact ⟨.empty, by rw [Row.members, hstart]⟩
  | some start =>
    rw [Row.members_of_start hstart (by rw [kind]; decide), Row.ownedCount_of_object kind]
    exact ⟨_, spanFrom_of_lt (range start hstart)⟩

/-- The rows of the range of a row are there. -/
theorem WellFormed.exists_owned (h : m.WellFormed top) (hrow : m.row i = .ok owner) {span : Span}
    (members : owner.members = .ok span) {k : Nat} (hk : k < span.length) :
    ∃ r, m.row (span.start + k) = .ok r :=
  exists_row_of_lt (h.inside i owner hrow _ ((Row.owns_iff members _).mpr ⟨k, hk, rfl⟩))

/-- The booleans of an object can be folded. -/
theorem exists_foldBooleans (wellFormed : m.WellFormed top) (object : m.IsObject i owner)
    (range : ∀ start, owner.start = some start → start + owner.count < indexLimit) :
    ∃ m', m.foldBooleans i = .ok m' := by
  obtain ⟨span, hspan⟩ := exists_members object.2 range
  have hmembers : m.members i = .ok span := (members_eq object.1).trans hspan
  obtain ⟨fields, hfields⟩ := Span.exists_mapM (s := span) (f := m.row) fun k hk =>
    wellFormed.exists_owned object.1 hspan hk
  unfold foldBooleans
  simp only [hmembers, hfields, bind_eq_ok, Except.ok.injEq, exists_eq_left']
  split
  · exact ⟨m, rfl⟩
  · exact ⟨_, rfl⟩

/-- Words own copies of booleans. -/
theorem range_of_bitSetRows {groups start : Nat} {bools : List Row} {w : Row}
    (h : w ∈ bitSetRows groups start bools) (enough : groups ≤ bitSetCount bools.length) :
    ∃ s, w.start = some s ∧ s + w.count ≤ start + bools.length := by
  induction groups generalizing start bools with
  | zero => exact absurd h List.not_mem_nil
  | succ groups ih =>
    rw [bitSetCount, boolsPerWord] at enough
    rcases List.mem_cons.mp h with rfl | h
    · refine ⟨start, rfl, Nat.add_le_add_left ?_ start⟩
      exact List.length_take_le' _ _
    · obtain ⟨s, hs, hle⟩ := ih h (by
        rw [bitSetCount, boolsPerWord, List.length_drop]
        omega)
      refine ⟨s, hs, ?_⟩
      cases groups with
      | zero => exact absurd h List.not_mem_nil
      | succ groups =>
        rw [List.length_drop, boolsPerWord] at hle
        omega

/-- Folding keeps rows sturdy. -/
theorem Folds.sturdy {before fields behind : List Row} (h : m.Folds m' i owner before fields behind)
    (wellFormed : m.WellFormed top) (sturdy : m.Sturdy allowed first) : m'.Sturdy allowed first := by
  have hsize := Rearranges.size_eq h
  have hgrows : m.size ≤ m'.size := by omega
  intro j r hrow
  have hold : ∀ k s, m.row k = .ok s → s.Sturdy allowed m'.texts first m'.size := by
    intro k s hs
    rw [h.texts]
    exact (sturdy k s hs).mono hgrows
  cases Rearranges.origin h wellFormed hrow with
  | same _ _ hsame => exact hold j r hsame
  | owner _ hshrunk =>
    subst hshrunk
    refine (hold i owner h.row).fewer h.kind ?_
    have hlength := h.length
    rw [List.length_append] at hlength
    rw [h.count]
    omega
  | kept k _ hkept _ => exact hold k r hkept
  | word _ hmem =>
    have hspec := bitSetRows_spec hmem
    obtain ⟨s, hs, hle⟩ := range_of_bitSetRows hmem (Nat.le_refl _)
    exact .of_bools hspec.2.1 (Or.inr hspec.1) fun _ => ⟨s, hs, by omega⟩
  | spare kind fits => exact .of_bools fits (Or.inl kind) fun hkind => by cases kind.symm.trans hkind

/-- What solving the layout needs and keeps. -/
structure Solvable (m : Model) (allowed : CustomStruct → Prop) (first top : Nat) : Prop where
  whole : m.Whole top
  ordered : m.Ordered
  sturdy : m.Sturdy allowed first
  grown : first ≤ m.size
  /-- Texts have references of their own. -/
  texts : (m.texts.entries.map (·.reference)).Nodup

theorem Solvable.range (h : m.Solvable allowed first top) (small : first < indexLimit)
    (object : m.IsObject i owner) {start : Nat} (hstart : owner.start = some start) :
    start + owner.count < indexLimit :=
  Nat.lt_of_le_of_lt ((h.sturdy i owner object.1).object object.2 start hstart) small

/-- The booleans of all objects can be folded. -/
theorem Solvable.exists_foldAll (h : m.Solvable allowed first top) (small : first < indexLimit) :
    ∃ m', m.foldAll = .ok m' ∧ m'.Solvable allowed first top := by
  refine exists_foldlM (P := fun m' : Model => m'.Solvable allowed first top) (fun m₁ t _ h₁ => ?_) h
  by_cases hobject : m₁.isObject t = true
  · obtain ⟨owner, howner⟩ := isObject_eq_true.mp hobject
    obtain ⟨m₂, hfold⟩ := exists_foldBooleans h₁.whole.toWellFormed howner fun start =>
      h₁.range small howner
    refine ⟨m₂, (if_pos hobject).trans hfold, ?_⟩
    obtain ⟨hwhole, hordered⟩ := foldBooleans_keeps h₁.whole h₁.ordered howner hfold
    rcases foldBooleans_folds h₁.whole.toWellFormed howner.1 howner.2 hfold with
      ⟨rfl, -⟩ | ⟨_, _, _, hfolds⟩
    · exact h₁
    · have htexts : m₂.texts = m₁.texts := Rearranges.texts hfolds
      have hsize := Rearranges.size_eq hfolds
      exact ⟨hwhole, hordered, hfolds.sturdy h₁.whole.toWellFormed h₁.sturdy,
        Nat.le_trans h₁.grown (by omega), htexts ▸ h₁.texts⟩
  · exact ⟨m₁, if_neg hobject, h₁⟩

/-! ### Sorting -/

/-- Whether all rows of a model fit their values. -/
def AllFit (m : Model) : Prop := ∀ i row, m.row i = .ok row → row.Fits

/-- Exchanging rows exchanges rows only. -/
theorem swap_keeps_rows {j : Nat} (h : m.swap i j = .ok m') : m'.size = m.size ∧ m'.texts = m.texts ∧
    ∀ k row, m'.row k = .ok row → ∃ k', m.row k' = .ok row := by
  refine ⟨?_, ?_, fun k row hrow => ⟨Equiv.swap i j k, ?_⟩⟩
  · unfold swap at h
    simp only [bind_eq_ok, pure_eq_ok] at h
    obtain ⟨a, -, b, -, rfl⟩ := h
    show ((m.rows.setIfInBounds i b).setIfInBounds j a).size = m.rows.size
    rw [Array.size_setIfInBounds, Array.size_setIfInBounds]
  · unfold swap at h
    simp only [bind_eq_ok, pure_eq_ok] at h
    obtain ⟨a, -, b, -, rfl⟩ := h
    rfl
  · rw [← row_swap h, Equiv.swap_apply_self, hrow]

/-- The fields of an object can be sorted. -/
theorem exists_sortFields (wellFormed : m.WellFormed top) (fits : m.AllFit)
    (object : m.IsObject i owner)
    (range : ∀ start, owner.start = some start → start + owner.count < indexLimit) :
    ∃ result, m.sortFields i = .ok result := by
  obtain ⟨span, hspan⟩ := exists_members object.2 range
  exact ⟨_, sortFields_eq object hspan (wellFormed.inside i owner object.1)
    (aligned_fields object.2 fun j r hrow => (fits j r hrow).exists_enum)⟩

/-- Whatever exchanges rows keeps them sturdy. -/
theorem Sturdy.permute (h : m.Sturdy allowed first) (size : m'.size = m.size) (texts : m'.texts = m.texts)
    (rows : ∀ k row, m'.row k = .ok row → ∃ k', m.row k' = .ok row) : m'.Sturdy allowed first := by
  intro k row hrow
  obtain ⟨k', hrow'⟩ := rows k row hrow
  rw [size, texts]
  exact h k' row hrow'

/-- Sorting the fields of an object keeps a model solvable. -/
theorem Solvable.sortFields (h : m.Solvable allowed first top) (object : m.IsObject i owner)
    {result : Model × Bool} (sorts : m.sortFields i = .ok result) :
    result.1.Solvable allowed first top := by
  obtain ⟨hwhole, hordered, -⟩ := sortFields_permutes h.whole h.ordered object sorts
  obtain ⟨hsturdy, hgrown, htexts⟩ := sortFields_keeps (P := fun m' : Model =>
      m'.Sturdy allowed first ∧ first ≤ m'.size ∧ (m'.texts.entries.map (·.reference)).Nodup) (by
    rintro m₁ m₂ a b ⟨hsturdy, hgrown, honce⟩ _ _ hswap
    obtain ⟨hsize, htexts, hrows⟩ := swap_keeps_rows hswap
    exact ⟨hsturdy.permute hsize htexts hrows, hsize.symm ▸ hgrown, htexts ▸ honce⟩) object.1
    ⟨h.sturdy, h.grown, h.texts⟩ sorts
  exact ⟨hwhole, hordered, hsturdy, hgrown, htexts⟩

/-- The fields of all objects can be sorted. -/
theorem Solvable.exists_sortAll (h : m.Solvable allowed first top) (small : first < indexLimit) :
    ∃ result, m.sortAll = .ok result ∧ result.1.Solvable allowed first top := by
  refine exists_foldlM (P := fun result : Model × Bool => result.1.Solvable allowed first top)
    (fun result t _ h₁ => ?_) h
  obtain ⟨m₁, moved⟩ := result
  by_cases hobject : m₁.isObject t = true
  · obtain ⟨owner, howner⟩ := isObject_eq_true.mp hobject
    obtain ⟨⟨m₂, now⟩, hsort⟩ := exists_sortFields h₁.whole.toWellFormed h₁.whole.fits howner
      fun start => h₁.range small howner
    have hkeeps : m₂.Solvable allowed first top := h₁.sortFields howner hsort
    refine ⟨(m₂, moved || now), ?_, hkeeps⟩
    simp only [if_pos hobject, hsort, bind_eq_ok, Except.ok.injEq, exists_eq_left', pure_eq_ok]
  · exact ⟨(m₁, moved), if_neg hobject, h₁⟩

theorem Solvable.exists_sortUntilStable (h : m.Solvable allowed first top) (small : first < indexLimit)
    (limit passes : Nat) : ∃ result, sortUntilStable limit m passes = .ok result ∧
      result.1.Solvable allowed first top := by
  induction limit generalizing m passes with
  | zero => exact ⟨(m, passes), rfl, h⟩
  | succ limit ih =>
    obtain ⟨⟨m₁, moved⟩, hsort, h₁⟩ := h.exists_sortAll small
    unfold sortUntilStable
    simp only [hsort, bind_eq_ok, Except.ok.injEq, exists_eq_left']
    cases moved with
    | true => exact ih h₁ (passes + 1)
    | false => exact ⟨(m₁, passes + 1), rfl, h₁⟩

/-- The layout of a model with sturdy rows can be solved, and its rows are sturdy still. -/
theorem Solvable.exists_solve (h : m.Solvable allowed first top) (small : first < indexLimit) :
    ∃ result, m.solve = .ok result ∧ result.1.Solvable allowed first top := by
  obtain ⟨m₁, hfold, h₁⟩ := h.exists_foldAll small
  obtain ⟨result, hsort, h₂⟩ := h₁.exists_sortUntilStable small (m₁.size * m₁.size + 1) 0
  refine ⟨result, ?_, h₂⟩
  unfold solve
  simp only [hfold, bind_eq_ok, Except.ok.injEq, exists_eq_left']
  exact hsort

/-! ### Blocks -/

theorem heldCount_of_array (kind : row.kind = .array) : row.heldCount = max row.count 1 := by
  rw [Row.heldCount, kind]

theorem heldCount_of_dictionary (kind : row.kind = .dictionary) :
    row.heldCount = 2 * max row.count 1 := by
  rw [Row.heldCount, kind]

theorem ownedCount_le_heldCount (kind : row.kind = .array ∨ row.kind = .dictionary) :
    row.ownedCount ≤ row.heldCount := by
  rcases kind with kind | kind <;> rw [Row.ownedCount, Row.heldCount, kind]
  · exact Nat.le_max_left _ _
  · exact Nat.mul_le_mul_left 2 (Nat.le_max_left _ _)

/-- The range of a collection is one. -/
theorem Solvable.exists_members (h : m.Solvable allowed first top) (small : first < indexLimit)
    (hrow : m.row i = .ok row)
    (owns : row.kind = .object ∨ row.kind = .array ∨ row.kind = .dictionary) :
    ∃ span, row.members = .ok span := by
  rcases owns with hkind | hkind
  · exact Model.exists_members hkind fun start => h.range small ⟨hrow, hkind⟩
  · obtain ⟨start, hstart, hinside⟩ := (h.sturdy i row hrow).collection hkind
    have howned := ownedCount_le_heldCount hkind
    have howning : row.kind ∈ Row.owningKinds := by
      rcases hkind with hkind | hkind <;> rw [hkind] <;> decide
    rw [Row.members_of_start hstart howning]
    exact ⟨_, spanFrom_of_lt (by omega)⟩

/-- The rows of a range are there and have sizes. -/
theorem Solvable.sized (h : m.Solvable allowed first top) (aligned : ∀ c, allowed c →
    isPowerOfTwo c.alignment = true ∧ c.alignment < wordLimit) (hrow : m.row i = .ok row) : row.Sized :=
  (h.whole.fits i row hrow).sized fun c hc => aligned c ((h.sturdy i row hrow).custom c hc)

theorem Solvable.rowsSized (h : m.Solvable allowed first top) (aligned : ∀ c, allowed c →
    isPowerOfTwo c.alignment = true ∧ c.alignment < wordLimit) (hrow : m.row i = .ok row) {span : Span}
    (members : row.members = .ok span) : m.RowsSized span.length span.start := by
  intro k hk
  obtain ⟨r, hr⟩ := h.whole.exists_owned hrow members hk
  exact ⟨r, hr, h.sized aligned hr⟩

/-- A collection tells its first elements, and holds them. -/
theorem Sturdy.exists_firstElements (h : m.Sturdy allowed first) (small : first < indexLimit)
    (hrow : m.row i = .ok row) (kind : row.kind = .array ∨ row.kind = .dictionary) :
    ∃ firsts, row.firstElements = .ok firsts ∧
      ∀ j, firsts.1 = some j ∨ firsts.2 = some j → row.Holds j ∧ j < first := by
  obtain ⟨start, hstart, hinside⟩ := (h i row hrow).collection kind
  rcases kind with hkind | hkind
  · have hheld := heldCount_of_array hkind
    refine ⟨(some start, none), by rw [Row.firstElements, hstart, hkind], fun j hj => ?_⟩
    rcases hj with hj | hj <;> cases hj
    exact ⟨⟨start, hstart, by omega, by omega⟩, by omega⟩
  · have hheld := heldCount_of_dictionary hkind
    have hkeys : spanFrom start (max row.count 1) = .ok ⟨start, max row.count 1⟩ :=
      spanFrom_of_lt (by omega)
    refine ⟨(some start, some (start + max row.count 1)), ?_, fun j hj => ?_⟩
    · rw [Row.firstElements, hstart, hkind]
      exact bind_eq_ok.mpr ⟨_, hkeys, rfl⟩
    · rcases hj with hj | hj <;> cases hj <;>
        exact ⟨⟨start, hstart, by omega, by omega⟩, by omega⟩

/-- All rows behind a block are there. -/
theorem Solvable.blockSized (h : m.Solvable allowed first top) (small : first < indexLimit)
    (aligned : ∀ c, allowed c → isPowerOfTwo c.alignment = true ∧ c.alignment < wordLimit)
    (hrow : m.row i = .ok row)
    (owns : row.kind = .object ∨ row.kind = .array ∨ row.kind = .dictionary) : m.BlockSized row := by
  obtain ⟨span, hspan⟩ := h.exists_members small hrow owns
  refine ⟨⟨span, hspan, h.rowsSized aligned hrow hspan⟩, ?_⟩
  rcases owns with hkind | hkind
  · refine ⟨(none, none), ?_, fun j hj => ?_⟩
    · rw [Row.firstElements, hkind]
      cases row.start <;> rfl
    · rcases hj with hj | hj <;> cases hj
  · obtain ⟨firsts, hfirsts, hheld⟩ := h.sturdy.exists_firstElements small hrow hkind
    refine ⟨firsts, hfirsts, fun j hj => ?_⟩
    obtain ⟨r, hr⟩ := exists_row_of_lt (m := m) (Nat.lt_of_lt_of_le (hheld j hj).2 h.grown)
    exact ⟨r, hr, h.sized aligned hr⟩

end Model

end ObjectPack
