import ObjectPack.Proofs.Model.Stable
import ObjectPack.Proofs.Model.Words

/-!
# Passes over all objects

Solving the layout folds the booleans of every object and then sorts the fields of all objects until a pass moves
nothing.  One pass that moves something is enough, and the next one finds all fields in order
(`Model.Layered.exists_sortUntilStable`), although a pass moves rows of objects that it has yet to come to: objects
stand before their ranges, and ranges have no row in common, so what a turn moves stands behind the object whose turn it
is, and behind all whose turn it has been (`Model.Layered`).  That is all that is known of a model here.
-/

namespace ObjectPack

open Outcome

/-- A fold over indices succeeds if every step does and leads from what holds of its index to what holds of the
next. -/
theorem exists_foldlM_range {β ε : Type} {f : β → Nat → Except ε β} {P : Nat → β → Prop} {n : Nat} {b : β}
    (step : ∀ t < n, ∀ b, P t b → ∃ b', f b t = .ok b' ∧ P (t + 1) b') (start : P 0 b) :
    ∃ b', (List.range n).foldlM f b = .ok b' ∧ P n b' := by
  induction n with
  | zero => exact ⟨b, rfl, start⟩
  | succ n ih =>
    obtain ⟨b₁, hfirst, hkept⟩ := ih fun t ht => step t (Nat.lt_succ_of_lt ht)
    obtain ⟨b₂, hlast, hnext⟩ := step n (Nat.lt_succ_self n) b₁ hkept
    refine ⟨b₂, ?_, hnext⟩
    rw [List.range_succ, List.foldlM_append]
    refine bind_eq_ok.mpr ⟨b₁, hfirst, ?_⟩
    rw [List.foldlM_cons]
    exact bind_eq_ok.mpr ⟨b₂, hlast, rfl⟩

/-! ### Ranges -/

namespace Row

variable {o o' : Row} {j k l : Nat}

/-- An object that owns fewer rows owns no others. -/
theorem owns_of_fewer (kind : o.kind = .object) (kind' : o'.kind = .object) (start : o'.start = o.start)
    (fewer : o'.count ≤ o.count) (owns : o'.Owns j) : o.Owns j := by
  obtain ⟨s, hs, hlow, hhigh⟩ := owns
  rw [ownedCount_of_object kind'] at hhigh
  exact ⟨s, start ▸ hs, hlow, by rw [ownedCount_of_object kind]; omega⟩

/-- Ranges have no gaps. -/
theorem owns_between (hj : o.Owns j) (hl : o.Owns l) (low : j ≤ k) (high : k ≤ l) : o.Owns k := by
  obtain ⟨s, hs, hlow, -⟩ := hj
  obtain ⟨s', hs', -, hhigh⟩ := hl
  obtain rfl := Option.some.inj (hs.symm.trans hs')
  exact ⟨s, hs, by omega, by omega⟩

end Row

namespace Model

variable {m m' : Model} {i j k n t : Nat} {o owner r row : Row} {span : Span} {p : Nat → Nat}

/-- Whether the objects of a model stand among its first `n` rows, each before its range, which lies among these rows
as well, no two ranges have a row in common, and enumerations have values. -/
structure Layered (m : Model) (n : Nat) : Prop where
  size : n ≤ m.size
  objects : ∀ i o, m.IsObject i o → i < n
  ranges : ∀ i o, m.IsObject i o → ∃ span, o.members = .ok span ∧ span.stop ≤ n
  below : ∀ i o j, m.IsObject i o → o.Owns j → i < j
  disjoint : ∀ i j o o' k, m.IsObject i o → m.IsObject j o' → o.Owns k → o'.Owns k → i = j
  enums : ∀ i r, m.row i = .ok r → r.kind = .enum → ∃ e v, r.value = .enum e v

/-- Whether no field of an object has to stand in front of one that stands before it. -/
def InOrder (m : Model) (o : Row) : Prop :=
  ∀ j k, o.Owns j → o.Owns k → j < k → ∃ c, m.compareRows j k = .ok c ∧ c ≠ .gt

/-- Whether no object has booleans, and the fields of all objects are in order. -/
structure LaidOut (m : Model) : Prop where
  noBool : ∀ i o j r, m.IsObject i o → o.Owns j → m.row j = .ok r → r.kind ≠ .bool
  inOrder : ∀ i o, m.IsObject i o → m.InOrder o

namespace Layered

theorem hasRange (h : m.Layered n) (object : m.IsObject i owner) : ∃ span, m.HasRange i owner span := by
  obtain ⟨span, hspan, hinside⟩ := h.ranges i owner object
  refine ⟨span, object, hspan, hinside.trans h.size, ?_⟩
  have hstop : span.stop = span.start + span.length := rfl
  by_cases hempty : span.length = 0
  · omega
  · exact Or.inl (h.below i owner _ object ((Row.owns_iff hspan _).mpr ⟨0, by omega, rfl⟩))

theorem lt_of_owns (h : m.Layered n) (object : m.IsObject i owner) (owns : owner.Owns j) : j < n := by
  obtain ⟨span, hspan, hinside⟩ := h.ranges i owner object
  obtain ⟨k, hk, rfl⟩ := (Row.owns_iff hspan j).mp owns
  exact Nat.lt_of_lt_of_le (Nat.add_lt_add_left hk _) hinside

theorem aligned (h : m.Layered n) (object : m.IsObject i owner) : AllAligned (m.fields owner) :=
  aligned_fields object.2 h.enums

/-- A turn keeps the layers if it moves objects inside of one range only and lets them own no other rows. -/
theorem carry (h : m.Layered n) (object : m.IsObject i owner) (size : n ≤ m'.size)
    (objects : ∀ j o', m'.IsObject j o' → ∃ k o, m.IsObject k o ∧ p k = j ∧ o'.start = o.start ∧
      o'.count ≤ o.count)
    (moves : ∀ k o, m.IsObject k o → p k = k ∨ owner.Owns k ∧ owner.Owns (p k))
    (enums : ∀ j r, m'.row j = .ok r → r.kind = .enum → ∃ e v, r.value = .enum e v) : m'.Layered n where
  size := size
  objects j o' hobject := by
    obtain ⟨k, o, ho, rfl, -⟩ := objects j o' hobject
    rcases moves k o ho with hstill | ⟨-, hin⟩
    · exact hstill.symm ▸ h.objects k o ho
    · exact h.lt_of_owns object hin
  ranges j o' hobject := by
    obtain ⟨k, o, ho, -, hstart, hfewer⟩ := objects j o' hobject
    obtain ⟨span, hspan, hinside⟩ := h.ranges k o ho
    cases hs : o.start with
    | none =>
      have hnone : o'.members = .ok .empty := by rw [Row.members, hstart, hs]
      exact ⟨.empty, hnone, Nat.zero_le n⟩
    | some s =>
      rw [Row.members_of_start hs (by rw [ho.2]; decide), Row.ownedCount_of_object ho.2, spanFrom_eq_ok] at hspan
      obtain ⟨hsmall, rfl⟩ := hspan
      have hstop : Span.stop ⟨s, o.count⟩ = s + o.count := rfl
      refine ⟨_, Row.members_of_object hobject.2 (hstart.trans hs) (by omega), ?_⟩
      show s + o'.count ≤ n
      omega
  below j o' l hobject howns := by
    obtain ⟨k, o, ho, rfl, hstart, hfewer⟩ := objects j o' hobject
    have hl := Row.owns_of_fewer ho.2 hobject.2 hstart hfewer howns
    have hbelow := h.below k o l ho hl
    rcases moves k o ho with hstill | ⟨hk, hin⟩
    · rwa [hstill]
    · -- What the object owns does not stand in the range that it moves in.
      by_contra hbehind
      have hinside := Row.owns_between hk hin (Nat.le_of_lt hbelow) (Nat.le_of_not_lt hbehind)
      obtain rfl := h.disjoint i k owner o l object ho hinside hl
      exact Nat.lt_irrefl i (h.below i owner i object hk)
  disjoint j j' o' o'' l hobject hobject' howns howns' := by
    obtain ⟨k, o, ho, rfl, hstart, hfewer⟩ := objects j o' hobject
    obtain ⟨k', q, hq, rfl, hstart', hfewer'⟩ := objects j' o'' hobject'
    rw [h.disjoint k k' o q l ho hq (Row.owns_of_fewer ho.2 hobject.2 hstart hfewer howns)
      (Row.owns_of_fewer hq.2 hobject'.2 hstart' hfewer' howns')]
  enums := enums

end Layered

/-! ### Sorting -/

/-- What tells whether fields are in order is a matter of the list of their rows. -/
theorem HasRange.inOrder_iff (range : m.HasRange i owner span) (aligned : AllAligned (m.fields owner)) :
    m.InOrder owner ↔ (m.fields owner).Pairwise Row.Before := by
  have hstop : span.stop = span.start + span.length := rfl
  have hlength := range.length_fields
  have hcompare : ∀ x y (hx : x < (m.fields owner).length) (hy : y < (m.fields owner).length),
      m.compareRows (span.start + x) (span.start + y) = .ok ((m.fields owner)[x].order (m.fields owner)[y]) := by
    intro x y hx hy
    obtain ⟨a, ha⟩ := aligned _ (List.getElem_mem hx)
    obtain ⟨b, hb⟩ := aligned _ (List.getElem_mem hy)
    exact compareRows_ok (range.row_field (List.getElem?_eq_getElem hx))
      (range.row_field (List.getElem?_eq_getElem hy)) ha hb
  rw [List.pairwise_iff_getElem]
  constructor
  · intro h x y hx hy hlt
    obtain ⟨c, hc, hne⟩ := h (span.start + x) (span.start + y) ((range.owns_iff _).mpr (by omega))
      ((range.owns_iff _).mpr (by omega)) (by omega)
    rw [hcompare x y hx hy] at hc
    rwa [Row.Before, Except.ok.inj hc]
  · intro h j k hj hk hlt
    rw [range.owns_iff] at hj hk
    obtain ⟨x, rfl⟩ := Nat.exists_eq_add_of_le hj.1
    obtain ⟨y, rfl⟩ := Nat.exists_eq_add_of_le hk.1
    exact ⟨_, hcompare x y (by omega) (by omega), h x y _ _ (by omega)⟩

/-- What the turn of an object makes of a model while fields are sorted. -/
structure SortedAt (m m' : Model) (n i : Nat) (owner : Row) : Prop where
  layered : m'.Layered n
  size : m'.size = m.size
  same : sorted (m.fields owner) = m.fields owner → m' = m
  before : ∀ j ≤ i, m'.row j = m.row j
  objects : ∀ k o, m'.IsObject k o → ∃ k', m.IsObject k' o
  fields : ∀ k o, m.IsObject k o → m'.fields o = if k = i then sorted (m.fields o) else m.fields o

/-- The turn of an object sorts its fields and leaves those of all other objects alone. -/
theorem Layered.exists_sortFields (h : m.Layered n) (object : m.IsObject i owner) : ∃ m',
    m.sortFields i = .ok (m', decide (sorted (m.fields owner) ≠ m.fields owner)) ∧ m.SortedAt m' n i owner := by
  obtain ⟨span, range⟩ := h.hasRange object
  have hsort := range.sortFields_eq (h.aligned object)
  have hlength : (sorted (m.fields owner)).length = span.length :=
    (length_sorted _).trans range.length_fields
  have hsize : (m.withRows (m.replaced span (sorted (m.fields owner)) [])).size = m.size :=
    (range.length_replaced hlength []).trans (Nat.add_zero _)
  obtain ⟨σ, hrows, houtside⟩ := sortFields_moves object.1 hsort
  have hstill : ∀ j, ¬ owner.Owns j → (m.withRows (m.replaced span (sorted (m.fields owner)) [])).row j = m.row j :=
    fun j hj => by
      have hrow := hrows j
      rwa [houtside j hj] at hrow
  have hobjects : ∀ j o', (m.withRows (m.replaced span (sorted (m.fields owner)) [])).IsObject j o' →
      ∃ k, m.IsObject k o' ∧ σ k = j := by
    intro j o' hobject
    obtain ⟨k, rfl⟩ := σ.surjective j
    exact ⟨k, ⟨(hrows k).symm.trans hobject.1, hobject.2⟩, rfl⟩
  refine ⟨_, hsort, ?_⟩
  exact
    { layered := by
        refine h.carry (p := σ) object (hsize ▸ h.size) (fun j o' hobject => ?_) (fun k o _ => ?_) fun j r hrow => ?_
        · obtain ⟨k, hk, hplace⟩ := hobjects j o' hobject
          exact ⟨k, o', hk, hplace, rfl, Nat.le_refl _⟩
        · by_cases hk : owner.Owns k
          · by_cases hσ : owner.Owns (σ k)
            · exact Or.inr ⟨hk, hσ⟩
            · exact Or.inl (σ.injective (houtside _ hσ))
          · exact Or.inl (houtside k hk)
        · obtain ⟨k, rfl⟩ := σ.surjective j
          exact h.enums k r ((hrows k).symm.trans hrow)
      size := hsize
      same := fun hsame => by rw [hsame, range.replaced_fields, withRows_eq_self rfl]
      before := fun j hj => hstill j fun howns => Nat.not_lt.mpr hj (h.below i owner j object howns)
      objects := fun j o' hobject => (hobjects j o' hobject).imp fun _ => And.left
      fields := by
        intro k o ho
        by_cases hk : k = i
        · subst hk
          obtain rfl := Except.ok.inj (ho.1.symm.trans object.1)
          rw [if_pos rfl, range.fields_withRows hlength]
        · rw [if_neg hk]
          refine fields_congr ho.2 (fun j howns => Nat.lt_of_lt_of_le (h.lt_of_owns ho howns) h.size)
            fun j r howns hrow => ?_
          exact (hstill j fun howns' => hk (h.disjoint k i o owner j ho object howns howns')).trans hrow }

/-- What a sorting pass has made of a model up to some turn. -/
structure SortedUpTo (m m' : Model) (n t : Nat) (moved : Bool) : Prop where
  layered : m'.Layered n
  size : m'.size = m.size
  same : moved = false → m' = m
  noBool : ∀ i o, m'.IsObject i o → ∀ r ∈ m'.fields o, r.kind ≠ .bool
  ordered : ∀ i < t, ∀ o, m'.IsObject i o → (m'.fields o).Pairwise Row.Before

theorem SortedUpTo.next {m₁ : Model} {moved : Bool} (h : m.SortedUpTo m₁ n t moved)
    (turn : m₁.SortedAt m' n t owner) :
    m.SortedUpTo m' n (t + 1) (moved || decide (sorted (m₁.fields owner) ≠ m₁.fields owner)) where
  layered := turn.layered
  size := turn.size.trans h.size
  same hnone := by
    obtain ⟨hmoved, hsorted⟩ := Bool.or_eq_false_iff.mp hnone
    rw [turn.same (not_not.mp (of_decide_eq_false hsorted)), h.same hmoved]
  noBool i o ho r hr := by
    obtain ⟨k, hk⟩ := turn.objects i o ho
    rw [turn.fields k o hk] at hr
    split at hr
    · exact h.noBool k o hk r ((sorted_perm _).mem_iff.mp hr)
    · exact h.noBool k o hk r hr
  ordered i hi o ho := by
    have hformer : m₁.IsObject i o := ⟨(turn.before i (Nat.le_of_lt_succ hi)).symm.trans ho.1, ho.2⟩
    rw [turn.fields i o hformer]
    split
    · exact sorted_pairwise _
    · exact h.ordered i (by omega) o hformer

/-- A pass sorts the fields of all objects. -/
theorem Layered.exists_sortAll (h : m.Layered n) (noBool : ∀ i o, m.IsObject i o → ∀ r ∈ m.fields o, r.kind ≠ .bool) :
    ∃ m' moved, m.sortAll = .ok (m', moved) ∧ m.SortedUpTo m' n m.size moved := by
  suffices ∃ result : Model × Bool, m.sortAll = .ok result ∧ m.SortedUpTo result.1 n m.size result.2 by
    obtain ⟨⟨m', moved⟩, hsort, hsorted⟩ := this
    exact ⟨m', moved, hsort, hsorted⟩
  refine exists_foldlM_range (P := fun t (result : Model × Bool) => m.SortedUpTo result.1 n t result.2) ?_
    ⟨h, rfl, fun _ => rfl, noBool, fun i hi => absurd hi (Nat.not_lt_zero i)⟩
  rintro t - ⟨m₁, moved⟩ hsorted
  by_cases hobject : m₁.isObject t = true
  · obtain ⟨owner, howner⟩ := isObject_eq_true.mp hobject
    obtain ⟨m₂, hsort, hturn⟩ := hsorted.layered.exists_sortFields howner
    refine ⟨(m₂, moved || decide (sorted (m₁.fields owner) ≠ m₁.fields owner)), ?_, hsorted.next hturn⟩
    simp only [if_pos hobject, hsort, bind_eq_ok, Except.ok.injEq, exists_eq_left', pure_eq_ok]
  · refine ⟨(m₁, moved), if_neg hobject, { hsorted with ordered := fun i hi o ho => ?_ }⟩
    rcases Nat.lt_succ_iff_lt_or_eq.mp hi with hlt | rfl
    · exact hsorted.ordered i hlt o ho
    · exact absurd (isObject_eq_true.mpr ⟨o, ho⟩) hobject

/-- A pass over fields that are in order moves nothing. -/
theorem Layered.sortAll_eq (h : m.Layered n) (ordered : ∀ i o, m.IsObject i o → (m.fields o).Pairwise Row.Before) :
    m.sortAll = .ok (m, false) := by
  suffices ∃ result, m.sortAll = .ok result ∧ result = (m, false) by
    obtain ⟨_, hsort, rfl⟩ := this
    exact hsort
  refine exists_foldlM_range (P := fun _ result => result = (m, false)) ?_ rfl
  rintro t - _ rfl
  refine ⟨(m, false), ?_, rfl⟩
  by_cases hobject : m.isObject t = true
  · obtain ⟨owner, howner⟩ := isObject_eq_true.mp hobject
    obtain ⟨m₂, hsort, hturn⟩ := h.exists_sortFields howner
    have hsame := sorted_eq_self_iff.mpr (ordered t owner howner)
    obtain rfl := hturn.same hsame
    simp [hobject, hsort, hsame, bind, Except.bind, pure, Except.pure]
  · exact if_neg hobject

/-! ### Folding -/

namespace HasRange

variable (range : m.HasRange i owner span)

include range

theorem foldedPlace_outside (outside : ¬ owner.Owns j) : foldedPlace span.start m.size (m.fields owner) j = j := by
  have hstop : span.stop = span.start + span.length := rfl
  have hlength := range.length_fields
  rw [range.owns_iff] at outside
  unfold foldedPlace
  split
  · rfl
  · rw [List.getElem?_eq_none (by omega)]

/-- Rows that are no booleans stay in the range. -/
theorem foldedPlace_inside (owns : owner.Owns j) (hrow : m.row j = .ok r) (kind : r.kind ≠ .bool) :
    owner.Owns (foldedPlace span.start m.size (m.fields owner) j) := by
  have hstop : span.stop = span.start + span.length := rfl
  have hlength := range.length_fields
  rw [range.owns_iff] at owns
  obtain ⟨x, rfl⟩ := Nat.exists_eq_add_of_le owns.1
  have hx : x < (m.fields owner).length := by omega
  obtain rfl := Except.ok.inj ((range.row_field (List.getElem?_eq_getElem hx)).symm.trans hrow)
  have hrank := (List.getElem?_eq_some_iff.mp (filter_rank (p := (·.kind ≠ .bool)) (List.getElem?_eq_getElem hx)
    (decide_eq_true kind))).1
  have hle := List.length_filter_le (fun r : Row => decide (r.kind ≠ .bool)) (m.fields owner)
  rw [foldedPlace_field (List.getElem?_eq_getElem hx) kind, range.owns_iff]
  omega

/-- Where the rows of the table come from when booleans have been folded. -/
theorem foldedTable_cases (hrow : (m.foldedTable i owner span).row j = .ok r) :
    (j = i ∧ r = { owner with count := (foldedFields m.size (m.fields owner)).length }) ∨
    (∃ k, m.row k = .ok r ∧ foldedPlace span.start m.size (m.fields owner) k = j) ∨
    r.kind = .bool ∨ r.kind = .bitSet := by
  have hstop : span.stop = span.start + span.length := rfl
  have hlength := range.length_range
  have hbool : ∀ b ∈ (m.fields owner).filter (·.kind = .bool), b.kind = .bool := fun b hb =>
    of_decide_eq_true (List.mem_filter.mp hb).2
  by_cases hself : j = i
  · subst hself
    exact Or.inl ⟨rfl, Except.ok.inj (hrow.symm.trans range.row_owner)⟩
  right
  by_cases howns : owner.Owns j
  · -- The range holds other fields, words and booleans that are left over.
    have hrange := (range.owns_iff j).mp howns
    obtain ⟨x, rfl⟩ := Nat.exists_eq_add_of_le hrange.1
    have hx : x < (foldedRange m.size (m.fields owner)).length := by omega
    have hr := List.getElem?_eq_getElem hx
    rw [← Except.ok.inj (hrow.symm.trans (range.row_range hr)), foldedRange, foldedFields, List.append_assoc] at hr
    by_cases hother : x < ((m.fields owner).filter (·.kind ≠ .bool)).length
    · rw [List.getElem?_append_left hother] at hr
      obtain ⟨k, hk, hkind, hrank⟩ := exists_rank hr
      refine Or.inl ⟨span.start + k, range.row_field hk, ?_⟩
      rw [foldedPlace_field hk (of_decide_eq_true hkind), hrank]
    · rw [List.getElem?_append_right (Nat.le_of_not_lt hother)] at hr
      rcases List.mem_append.mp (List.mem_of_getElem? hr) with hword | hrest
      · exact Or.inr (Or.inr (bitSetRows_spec hword).1)
      · exact Or.inr (Or.inl (hbool r (List.mem_of_mem_drop hrest)))
  · by_cases hold : j < m.size
    · have hsame := range.row_outside hold hself (by
        rw [range.owns_iff] at howns
        omega)
      exact Or.inl ⟨j, hsame.symm.trans hrow, range.foldedPlace_outside howns⟩
    · -- Copies of booleans have been added.
      obtain ⟨x, rfl⟩ := Nat.exists_eq_add_of_le (Nat.le_of_not_lt hold)
      have hlt := lt_size_of_row hrow
      rw [range.size_foldedTable] at hlt
      have hcopy := range.row_copy (List.getElem?_eq_getElem (Nat.lt_of_add_lt_add_left hlt))
      obtain rfl := Except.ok.inj (hcopy.symm.trans hrow)
      exact Or.inr (Or.inl (hbool _ (List.getElem_mem _)))

end HasRange

/-- What the turn of an object makes of a model while booleans are folded. -/
structure FoldedAt (m m' : Model) (n i : Nat) : Prop where
  layered : m'.Layered n
  before : ∀ j < i, m'.row j = m.row j
  fields : ∀ o, m'.IsObject i o → ∀ r ∈ m'.fields o, r.kind ≠ .bool
  kinds : ∀ k o, m.IsObject k o → k < i → (m'.fields o).map (·.kind) = (m.fields o).map (·.kind)

/-- The turn of an object folds its booleans and leaves the kinds of the fields of all other objects alone. -/
theorem Layered.exists_foldBooleans (h : m.Layered n) (object : m.IsObject i owner) :
    ∃ m', m.foldBooleans i = .ok m' ∧ m.FoldedAt m' n i := by
  obtain ⟨span, range⟩ := h.hasRange object
  by_cases hnone : (m.fields owner).filter (·.kind = .bool) = []
  · refine ⟨m, range.foldBooleans_of_nil hnone, h, fun _ _ => rfl, fun o ho r hr hbool => ?_, fun _ _ _ _ => rfl⟩
    obtain rfl := Except.ok.inj (object.1.symm.trans ho.1)
    exact List.filter_eq_nil_iff.mp hnone r hr (decide_eq_true hbool)
  have hself : ¬ owner.Owns i := fun howns => Nat.lt_irrefl i (h.below i owner i object howns)
  have hrow : ∀ j, j < m.size → j ≠ i → ¬ owner.Owns j → (m.foldedTable i owner span).row j = m.row j := by
    intro j hj hne hout
    rw [range.owns_iff] at hout
    exact range.row_outside hj hne (by omega)
  refine ⟨_, range.foldBooleans_of_some hnone, ?_⟩
  exact
    { layered := by
        refine h.carry (p := foldedPlace span.start m.size (m.fields owner)) object ?_ (fun j o' hobject => ?_)
          (fun k o ho => ?_) fun j r hrow hkind => ?_
        · rw [range.size_foldedTable]
          exact Nat.le_add_right_of_le h.size
        · rcases range.foldedTable_cases hobject.1 with ⟨rfl, rfl⟩ | ⟨k, hk, hplace⟩ | hkind
          · exact ⟨j, owner, object, range.foldedPlace_outside hself, rfl,
              range.length_foldedFields_le.trans_eq (range.start_count hnone).2.symm⟩
          · exact ⟨k, o', ⟨hk, hobject.2⟩, hplace, rfl, Nat.le_refl _⟩
          · rw [hobject.2] at hkind
            rcases hkind with hkind | hkind <;> cases hkind
        · by_cases hk : owner.Owns k
          · exact Or.inr ⟨hk, range.foldedPlace_inside hk ho.1 (by rw [ho.2]; decide)⟩
          · exact Or.inl (range.foldedPlace_outside hk)
        · rcases range.foldedTable_cases hrow with ⟨rfl, rfl⟩ | ⟨k, hk, hplace⟩ | hkind'
          · cases object.2.symm.trans hkind
          · exact h.enums k r hk hkind
          · rw [hkind] at hkind'
            rcases hkind' with hkind' | hkind' <;> cases hkind'
      before := fun j hj => hrow j (hj.trans (lt_size_of_row object.1)) (Nat.ne_of_lt hj) fun howns =>
        Nat.lt_asymm hj (h.below i owner j object howns)
      fields := by
        intro o ho r hr hbool
        obtain rfl := Except.ok.inj (range.row_owner.symm.trans ho.1)
        rw [range.fields_foldedTable hnone] at hr
        exact List.filter_eq_nil_iff.mp (filter_foldedFields _ _) r hr (decide_eq_true hbool)
      kinds := by
        intro k o ho hk
        refine fields_map_congr ho.2 (fun j howns => Nat.lt_of_lt_of_le (h.lt_of_owns ho howns) h.size)
          fun j r howns hr => ?_
        by_cases hj : j = i
        · subst hj
          obtain rfl := Except.ok.inj (hr.symm.trans object.1)
          exact ⟨_, range.row_owner, rfl⟩
        · refine ⟨r, (hrow j (lt_size_of_row hr) hj fun howns' => ?_).trans hr, rfl⟩
          exact Nat.ne_of_lt hk (h.disjoint k i o owner j ho object howns howns') }

/-- Folding leaves no booleans to any object. -/
theorem Layered.exists_foldAll (h : m.Layered m.size) : ∃ m', m.foldAll = .ok m' ∧ m'.Layered m.size ∧
    ∀ i o, m'.IsObject i o → ∀ r ∈ m'.fields o, r.kind ≠ .bool := by
  suffices ∃ m', m.foldAll = .ok m' ∧ m'.Layered m.size ∧
      ∀ i < m.size, ∀ o, m'.IsObject i o → ∀ r ∈ m'.fields o, r.kind ≠ .bool by
    obtain ⟨m', hfold, hlayered, hdone⟩ := this
    exact ⟨m', hfold, hlayered, fun i o ho => hdone i (hlayered.objects i o ho) o ho⟩
  refine exists_foldlM_range (P := fun t (m' : Model) => m'.Layered m.size ∧
    ∀ i < t, ∀ o, m'.IsObject i o → ∀ r ∈ m'.fields o, r.kind ≠ .bool) ?_
    ⟨h, fun i hi => absurd hi (Nat.not_lt_zero i)⟩
  rintro t - m₁ ⟨h₁, hdone⟩
  by_cases hobject : m₁.isObject t = true
  · obtain ⟨owner, howner⟩ := isObject_eq_true.mp hobject
    obtain ⟨m₂, hfold, hturn⟩ := h₁.exists_foldBooleans howner
    refine ⟨m₂, (if_pos hobject).trans hfold, hturn.layered, fun i hi o ho r hr => ?_⟩
    rcases Nat.lt_succ_iff_lt_or_eq.mp hi with hlt | rfl
    · have hformer : m₁.IsObject i o := ⟨(hturn.before i hlt).symm.trans ho.1, ho.2⟩
      have hkind := List.mem_map_of_mem (f := (·.kind)) hr
      rw [hturn.kinds i o hformer hlt] at hkind
      obtain ⟨r', hr', hsame⟩ := List.mem_map.mp hkind
      exact hsame ▸ hdone i hlt o hformer r' hr'
    · exact hturn.fields o ho r hr
  · refine ⟨m₁, if_neg hobject, h₁, fun i hi o ho => ?_⟩
    rcases Nat.lt_succ_iff_lt_or_eq.mp hi with hlt | rfl
    · exact hdone i hlt o ho
    · exact absurd (isObject_eq_true.mpr ⟨o, ho⟩) hobject

/-- Without booleans nothing is folded. -/
theorem Layered.foldAll_eq (h : m.Layered n) (noBool : ∀ i o, m.IsObject i o → ∀ r ∈ m.fields o, r.kind ≠ .bool) :
    m.foldAll = .ok m := by
  suffices ∃ result, m.foldAll = .ok result ∧ m = result by
    obtain ⟨_, hfold, rfl⟩ := this
    exact hfold
  refine exists_foldlM_range (P := fun _ result => m = result) ?_ rfl
  rintro t - _ rfl
  by_cases hobject : m.isObject t = true
  · obtain ⟨owner, howner⟩ := isObject_eq_true.mp hobject
    obtain ⟨span, range⟩ := h.hasRange howner
    have hnone : (m.fields owner).filter (·.kind = .bool) = [] :=
      List.filter_eq_nil_iff.mpr fun r hr hbool => noBool t owner howner r hr (of_decide_eq_true hbool)
    exact ⟨m, (if_pos hobject).trans (range.foldBooleans_of_nil hnone), rfl⟩
  · exact ⟨m, if_neg hobject, rfl⟩

/-! ### Solving -/

theorem sortUntilStable_of_stable {limit passes : Nat} (h : m.sortAll = .ok (m, false)) :
    sortUntilStable (limit + 1) m passes = .ok (m, passes + 1) := by
  rw [sortUntilStable, h]
  rfl

/-- Sorting until nothing moves takes one pass if all fields are in order, and two passes otherwise. -/
theorem Layered.exists_sortUntilStable (h : m.Layered n)
    (noBool : ∀ i o, m.IsObject i o → ∀ r ∈ m.fields o, r.kind ≠ .bool) : ∃ m' passes,
      m'.Layered n ∧ (∀ i o, m'.IsObject i o → ∀ r ∈ m'.fields o, r.kind ≠ .bool) ∧
      (∀ i o, m'.IsObject i o → (m'.fields o).Pairwise Row.Before) ∧
      (passes = 1 ∧ (∀ i o, m.IsObject i o → (m.fields o).Pairwise Row.Before) ∨
        passes = 2 ∧ ¬ ∀ i o, m.IsObject i o → (m.fields o).Pairwise Row.Before) ∧
      ∀ limit, passes ≤ limit → sortUntilStable limit m 0 = .ok (m', passes) := by
  obtain ⟨m₁, moved, hsort, hsorted⟩ := h.exists_sortAll noBool
  have hordered : ∀ i o, m₁.IsObject i o → (m₁.fields o).Pairwise Row.Before := fun i o ho =>
    hsorted.ordered i (hsorted.size ▸ lt_size_of_row ho.1) o ho
  by_cases hall : ∀ i o, m.IsObject i o → (m.fields o).Pairwise Row.Before
  · refine ⟨m, 1, h, noBool, hall, Or.inl ⟨rfl, hall⟩, fun limit hlimit => ?_⟩
    obtain ⟨l, rfl⟩ := Nat.exists_eq_add_of_le' hlimit
    exact sortUntilStable_of_stable (h.sortAll_eq hall)
  · refine ⟨m₁, 2, hsorted.layered, hsorted.noBool, hordered, Or.inr ⟨rfl, hall⟩, fun limit hlimit => ?_⟩
    obtain ⟨l, rfl⟩ := Nat.exists_eq_add_of_le' hlimit
    cases moved with
    | false => exact absurd (hsorted.same rfl ▸ hordered) hall
    | true =>
      rw [sortUntilStable, hsort]
      exact sortUntilStable_of_stable (hsorted.layered.sortAll_eq hordered)

theorem Layered.inOrder_iff (h : m.Layered n) (object : m.IsObject i owner) :
    m.InOrder owner ↔ (m.fields owner).Pairwise Row.Before := by
  obtain ⟨span, range⟩ := h.hasRange object
  exact range.inOrder_iff (h.aligned object)

end Model

end ObjectPack
