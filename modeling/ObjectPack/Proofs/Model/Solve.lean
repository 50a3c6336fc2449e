import ObjectPack.Model.Solve
import ObjectPack.Proofs.Model.Layout
import ObjectPack.Proofs.Model.Rearrange

/-!
# Solving keeps the forest

Folding the booleans of an object and exchanging two of its rows are rearrangements, and nothing else happens to a
model while its layout is solved.  So solving keeps whatever rearranging keeps (`Model.solve_rearranges`), and first
of all it leaves a forest with the same objects below the same data units (`Model.solve_whole`).
-/

namespace ObjectPack

open Outcome

namespace Span

variable {α ε : Type} {f : Nat → Except ε α}

theorem foldFrom_map_eq_ok {n start : Nat} {found result : List α}
    (h : foldFrom (fun found i => (f i).map fun b => b :: found) n start found = .ok result) :
    ∃ l : List α, result = l.reverse ++ found ∧ l.length = n ∧
      ∀ k a, l[k]? = some a → f (start + k) = .ok a := by
  induction n generalizing start found with
  | zero =>
    cases h
    exact ⟨[], rfl, rfl, fun k a hk => by cases hk⟩
  | succ n ih =>
    obtain ⟨found', hfirst, hrest⟩ := foldFrom_succ_eq_ok.mp h
    obtain ⟨b, hb, rfl⟩ := map_eq_ok.mp hfirst
    obtain ⟨l, rfl, hlength, hl⟩ := ih hrest
    refine ⟨b :: l, by simp, by rw [List.length_cons, hlength], ?_⟩
    rintro (_ | k) a hk
    · cases hk
      exact hb
    · rw [show start + (k + 1) = start + 1 + k by omega]
      exact hl k a hk

/-- What is collected over a range. -/
theorem mapM_eq_ok {s : Span} {l : List α} (h : s.mapM f = .ok l) :
    l.length = s.length ∧ ∀ k a, l[k]? = some a → f (s.start + k) = .ok a := by
  unfold mapM at h
  obtain ⟨result, hfold, rfl⟩ := map_eq_ok.mp h
  obtain ⟨l, rfl, hlength, hl⟩ := foldFrom_map_eq_ok hfold
  rw [List.append_nil, List.reverse_reverse]
  exact ⟨hlength, hl⟩

/-- A fold over a range succeeds if every step does and keeps what makes the next one succeed. -/
theorem exists_foldFrom {f : α → Nat → Except ε α} {P : α → Prop} {n start : Nat} {a : α}
    (step : ∀ a, ∀ k < n, P a → ∃ b, f a (start + k) = .ok b ∧ P b) (first : P a) :
    ∃ b, foldFrom f n start a = .ok b ∧ P b := by
  induction n generalizing start a with
  | zero => exact ⟨a, rfl, first⟩
  | succ n ih =>
    obtain ⟨b, hb, hkeeps⟩ := step a 0 (Nat.zero_lt_succ n) first
    obtain ⟨c, hc, hlast⟩ := @ih (start + 1) b (fun a k hk ha => by
      rw [Nat.add_right_comm]
      exact step a (k + 1) (Nat.succ_lt_succ hk) ha) hkeeps
    exact ⟨c, foldFrom_succ_eq_ok.mpr ⟨b, hb, hc⟩, hlast⟩

/-- Collecting over a range succeeds if every step does. -/
theorem exists_mapM {s : Span} (step : ∀ k < s.length, ∃ b, f (s.start + k) = .ok b) :
    ∃ l, s.mapM f = .ok l := by
  have hfold : ∃ found, foldFrom (fun found i => (f i).map fun b => b :: found) s.length s.start []
      = .ok found ∧ True := by
    refine exists_foldFrom (fun found k hk _ => ?_) trivial
    obtain ⟨b, hb⟩ := step k hk
    exact ⟨b :: found, map_eq_ok.mpr ⟨b, hb, rfl⟩, trivial⟩
  obtain ⟨found, hfound, -⟩ := hfold
  exact ⟨found.reverse, map_eq_ok.mpr ⟨found, hfound, rfl⟩⟩

end Span

namespace Model

variable {m m' : Model} {top i j : Nat} {owner row : Row}

/-! ### Words of booleans -/

/-- Words own the copies of their booleans. -/
theorem bitSetRows_spec {groups start : Nat} {bools : List Row} {w : Row}
    (h : w ∈ bitSetRows groups start bools) : w.kind = .bitSet ∧ w.Fits ∧
      ∀ j, w.Owns j → start ≤ j ∧ j < start + bools.length := by
  induction groups generalizing start bools with
  | zero => cases h
  | succ groups ih =>
    rcases List.mem_cons.mp h with rfl | h
    · refine ⟨rfl, rfl, ?_⟩
      rintro j ⟨start', hstart, hle, hlt⟩
      cases hstart
      have hcount : (bitSetRow start (bools.take boolsPerWord)).ownedCount
          = (bools.take boolsPerWord).length := rfl
      rw [hcount, List.length_take] at hlt
      omega
    · obtain ⟨hkind, hfits, howns⟩ := ih h
      refine ⟨hkind, hfits, fun j hj => ?_⟩
      have hrange := howns j hj
      rw [List.length_drop] at hrange
      omega

theorem bitSetRows_pairwise (groups start : Nat) (bools : List Row) :
    (bitSetRows groups start bools).Pairwise Row.Apart := by
  induction groups generalizing start bools with
  | zero => exact .nil
  | succ groups ih =>
    refine List.pairwise_cons.mpr ⟨fun w hw => Or.inr fun j hj hj' => ?_, ih _ _⟩
    obtain ⟨start', hstart, hle, hlt⟩ := hj
    cases hstart
    have hcount : (bitSetRow start (bools.take boolsPerWord)).ownedCount
        = (bools.take boolsPerWord).length := rfl
    have hrange := (bitSetRows_spec hw).2.2 j hj'
    rw [hcount, List.length_take] at hlt
    omega

theorem length_bitSetRows (groups start : Nat) (bools : List Row) :
    (bitSetRows groups start bools).length = groups := by
  induction groups generalizing start bools with
  | zero => rfl
  | succ groups ih => rw [bitSetRows, List.length_cons, ih]

theorem bitSetCount_le (n : Nat) : bitSetCount n ≤ n := by
  unfold bitSetCount boolsPerWord
  omega

/-- The range of an object that owns rows. -/
theorem range_of_members {span : Span} (kind : owner.kind = .object) (h : owner.members = .ok span)
    (nonempty : 0 < span.length) : owner.start = some span.start ∧ owner.count = span.length := by
  obtain ⟨rfl, -⟩ | ⟨start, hstart, -, rfl⟩ := Row.members_cases h
  · cases nonempty
  · exact ⟨hstart, (Row.ownedCount_of_object kind).symm⟩

/-- The range of an object, cut out of the table. -/
theorem WellFormed.exists_fields (h : m.WellFormed top) (hrow : m.row i = .ok owner)
    (kind : owner.kind = .object) {start : Nat} (hstart : owner.start = some start)
    (nonempty : owner.count ≠ 0) : ∃ before fields behind, before.length = start ∧
      fields.length = owner.count ∧ m.rows.toList = before ++ fields ++ behind := by
  have howns : owner.Owns (start + owner.count - 1) := by
    refine ⟨start, hstart, by omega, ?_⟩
    rw [Row.ownedCount_of_object kind]
    omega
  have hinside : start + owner.count - 1 < m.rows.toList.length := h.inside i owner hrow _ howns
  refine ⟨m.rows.toList.take start, (m.rows.toList.drop start).take owner.count,
    m.rows.toList.drop (start + owner.count), ?_, ?_, ?_⟩
  · rw [List.length_take]
    omega
  · rw [List.length_take, List.length_drop]
    omega
  · rw [List.append_assoc, ← List.drop_drop, List.take_append_drop, List.take_append_drop]

/-- What is left over of booleans that are folded. -/
theorem length_folded (fields : List Row) :
    (fields.filter (·.kind ≠ .bool)).length + (fields.filter (·.kind = .bool)).length
      = fields.length := by
  have hperm := List.filter_append_perm (fun r : Row => decide (r.kind = .bool)) fields
  have hlength := hperm.length_eq
  rw [List.length_append] at hlength
  simp only [← decide_not] at hlength
  rw [← hlength, Nat.add_comm]

/-- Whether one model is another one with the booleans of an object folded. -/
def Folds (m m' : Model) (i : Nat) (owner : Row) (before fields behind : List Row) : Prop :=
  m.Rearranges m' i owner before fields behind (fields.filter (·.kind ≠ .bool))
    (bitSetRows (bitSetCount (fields.filter (·.kind = .bool)).length) m.size
      (fields.filter (·.kind = .bool)))
    ((fields.filter (·.kind = .bool)).drop (bitSetCount (fields.filter (·.kind = .bool)).length))
    (fields.filter (·.kind = .bool))

/-- Folding the booleans of an object rearranges its rows, if it has any. -/
theorem foldBooleans_folds (wellFormed : m.WellFormed top) (hrow : m.row i = .ok owner)
    (kind : owner.kind = .object) (h : m.foldBooleans i = .ok m') :
    (m' = m ∧ ∀ j r, owner.Owns j → m.row j = .ok r → r.kind ≠ .bool) ∨
      ∃ before fields behind, m.Folds m' i owner before fields behind := by
  unfold foldBooleans at h
  simp only [bind_eq_ok] at h
  obtain ⟨span, hmembers, fields, hfields, h⟩ := h
  obtain ⟨hlength, hget⟩ := Span.mapM_eq_ok hfields
  have hspan : owner.members = .ok span := (Model.members_eq hrow).symm.trans hmembers
  -- Without booleans nothing is folded.
  by_cases hnone : (fields.filter (·.kind = .bool)).isEmpty
  · rw [if_pos hnone] at h
    refine Or.inl ⟨(pure_eq_ok.mp h).symm, fun j r howns hj hbool => ?_⟩
    obtain ⟨k, hk, rfl⟩ := (Row.owns_iff hspan j).mp howns
    have hfield := hget k _ (List.getElem?_eq_getElem (hlength ▸ hk))
    rw [hj] at hfield
    have hmem : r ∈ fields.filter (·.kind = .bool) :=
      List.mem_filter.mpr ⟨Except.ok.inj hfield ▸ List.getElem_mem _, decide_eq_true hbool⟩
    rw [List.isEmpty_iff.mp hnone] at hmem
    cases hmem
  · rw [if_neg hnone] at h
    obtain rfl := pure_eq_ok.mp h
    right
    have hne : fields ≠ [] := by
      rintro rfl
      exact hnone rfl
    have hpos : 0 < span.length := hlength ▸ List.length_pos_iff.mpr hne
    obtain ⟨hstart, hcount⟩ := range_of_members kind hspan hpos
    -- The span of the object cuts the table in three; only the part in the middle is replaced.
    obtain ⟨before, fields', behind, hbefore, hfields', hrows⟩ :=
      wellFormed.exists_fields hrow kind hstart (by omega)
    obtain rfl : fields' = fields := by
      refine List.ext_getElem (by omega) fun k hk hk' => ?_
      have hfield := row_eq_ok.mp (hget k _ (List.getElem?_eq_getElem hk'))
      rw [hrows, List.append_assoc, ← hbefore, List.getElem?_append_right (Nat.le_add_right _ _),
        Nat.add_sub_cancel_left, List.getElem?_append_left hk, List.getElem?_eq_getElem hk] at hfield
      exact Option.some.inj hfield
    refine ⟨before, fields', behind, ?_⟩
    exact
      { row := hrow
        kind := kind
        start := hbefore ▸ hstart
        count := hfields'.symm
        rows := hrows
        rows' := by
          have hfront : (m.rows.extract 0 span.start).toList = before := by
            rw [Array.toList_extract, hrows, List.append_assoc, ← hbefore]
            exact List.take_left
          have hback : (m.rows.extract span.stop m.size).toList = behind := by
            have hstop : span.stop = (before ++ fields').length := by
              rw [List.length_append, hbefore, hlength]
              rfl
            have hsize : m.size = (before ++ fields').length + behind.length := by
              rw [← List.length_append, ← hrows, Array.length_toList]
              rfl
            rw [Array.toList_extract, hrows, List.extract_eq_take_drop, hstop, List.drop_left, hsize,
              Nat.add_sub_cancel_left, List.take_length]
          rw [setCount, modify, Array.toList_modify]
          simp only [Array.toList_append, hfront, hback]
          rw [List.length_append, length_bitSetRows]
        length := by
          have hlength := length_folded fields'
          have hle := bitSetCount_le (fields'.filter (·.kind = .bool)).length
          simp only [List.length_append, length_bitSetRows, List.length_drop]
          omega
        keeps := List.filter_sublist.subperm
        loses := fun r hr hkind => List.mem_filter.mpr ⟨hr, decide_eq_true hkind⟩
        apart := bitSetRows_pairwise _ _ _
        fits := fun w hw => ⟨(bitSetRows_spec hw).1, (bitSetRows_spec hw).2.1⟩
        owns := fun w hw => (bitSetRows_spec hw).2.2
        spare := by
          intro b hb
          have hmem : b ∈ fields'.filter (·.kind = .bool) := by
            rcases List.mem_append.mp hb with hb | hb
            · exact List.mem_of_mem_drop hb
            · exact hb
          obtain ⟨hfield, hbool⟩ := List.mem_filter.mp hmem
          obtain ⟨k, hk⟩ := List.mem_iff_getElem?.mp hfield
          exact ⟨of_decide_eq_true hbool, wellFormed.fits _ b (hget k b hk)⟩
        texts := rfl
        supply := rfl }

theorem modify_eq_self {α : Type} {l : List α} {i : Nat} {a : α} {f : α → α} (h : l[i]? = some a)
    (same : f a = a) : l.modify i f = l := by
  apply List.ext_getElem?
  intro j
  by_cases hj : i = j
  · subst hj
    rw [List.getElem?_modify_eq, h, Option.map_eq_map, Option.map_some, same]
  · rw [List.getElem?_modify_ne _ _ hj]

/-- Exchanging two rows of an object rearranges them. -/
theorem swap_rearranges (wellFormed : m.WellFormed top) (hrow : m.row i = .ok owner)
    (kind : owner.kind = .object) {j k : Nat} (first : owner.Owns j) (second : owner.Owns k)
    (h : m.swap j k = .ok m') : ∃ before fields behind kept, kept.length = owner.count ∧
      m.Rearranges m' i owner before fields behind kept [] [] [] := by
  unfold swap at h
  simp only [bind_eq_ok, pure_eq_ok] at h
  obtain ⟨a, ha, b, hb, rfl⟩ := h
  obtain ⟨start, hstart, hle, hlt⟩ := first
  obtain ⟨start', hstart', hle', hlt'⟩ := second
  rw [hstart] at hstart'
  cases hstart'
  rw [Row.ownedCount_of_object kind] at hlt hlt'
  obtain ⟨before, fields, behind, hbefore, hfields, hrows⟩ :=
    wellFormed.exists_fields hrow kind hstart (by omega)
  -- Both rows are fields of the owner, so the rows in front and behind stay as they are.
  obtain ⟨x, rfl⟩ := Nat.exists_eq_add_of_le hle
  obtain ⟨y, rfl⟩ := Nat.exists_eq_add_of_le hle'
  have hx : x < fields.length := by omega
  have hy : y < fields.length := by omega
  subst hbefore
  have hfield : ∀ z (hz : z < fields.length), m.rows.toList[before.length + z]? = some fields[z] := by
    intro z hz
    rw [hrows, List.append_assoc, List.getElem?_append_right (Nat.le_add_right _ _),
      Nat.add_sub_cancel_left, List.getElem?_append_left hz, List.getElem?_eq_getElem hz]
  obtain rfl : fields[x] = a := Option.some.inj ((hfield x hx).symm.trans (row_eq_ok.mp ha))
  obtain rfl : fields[y] = b := Option.some.inj ((hfield y hy).symm.trans (row_eq_ok.mp hb))
  set kept := (fields.set x fields[y]).set y fields[x]
  have hperm : kept.Perm fields := List.set_set_perm hx hy
  have hset : ∀ (l : List Row) z r, z < l.length →
      (before ++ l ++ behind).set (before.length + z) r = before ++ l.set z r ++ behind := by
    intro l z r hz
    rw [List.append_assoc, List.set_append_right _ _ (Nat.le_add_right _ _), Nat.add_sub_cancel_left,
      List.set_append_left _ _ hz, List.append_assoc]
  refine ⟨before, fields, behind, kept, hperm.length_eq.trans hfields, ?_⟩
  exact
    { row := hrow
      kind := kind
      start := hstart
      count := hfields.symm
      rows := hrows
      rows' := by
        show ((m.rows.setIfInBounds _ _).setIfInBounds _ _).toList = _
        rw [Array.toList_setIfInBounds, Array.toList_setIfInBounds, hrows, hset _ _ _ hx,
          hset _ _ _ (by rwa [List.length_set])]
        simp only [List.append_nil]
        -- The owner is none of its own fields, and its count is still right.
        have houtside : i < before.length ∨ before.length + fields.length ≤ i := by
          by_contra hinside
          refine wellFormed.notItself i owner hrow (by rw [kind]; decide) ?_
          refine ⟨before.length, hstart, by omega, ?_⟩
          rw [Row.ownedCount_of_object kind]
          omega
        have hinside : i < (before ++ fields ++ behind).length := by
          rw [← hrows, Array.length_toList]
          exact lt_size_of_row hrow
        have hsame := Rearranges.getElem?_replaced (d := []) hperm.length_eq houtside hinside
        rw [List.append_nil, ← hrows, row_eq_ok.mp hrow] at hsame
        refine (modify_eq_self hsame ?_).symm
        rw [hperm.length_eq, hfields]
      length := by
        rw [List.append_nil, List.append_nil]
        exact hperm.length_eq
      keeps := hperm.subperm
      loses := fun r hr _ => hperm.mem_iff.mpr hr
      apart := .nil
      fits := fun w hw => absurd hw List.not_mem_nil
      owns := fun w hw => absurd hw List.not_mem_nil
      spare := fun b hb => absurd hb List.not_mem_nil
      texts := rfl
      supply := rfl }

/-! ### Solving -/

/-- Whether the rows of a model form a forest in which every object belongs to the data unit of a top
row, or to one that it refers to. -/
structure Whole (m : Model) (top : Nat) : Prop extends m.WellFormed top where
  complete : m.Complete top

/-- The root objects of data units own blocks. -/
theorem WellFormed.objects (h : m.WellFormed top) : ∀ i row root, m.row i = .ok row →
    row.kind = .dataUnit → row.start = some root → m.OwnsBlock root := by
  intro i row root hrow hkind hstart
  obtain ⟨-, object, hobject, hkind, -⟩ := h.roots i row root hrow hkind hstart
  exact ⟨object, hobject, Or.inl hkind⟩

theorem Rearranges.whole {before fields behind kept words rest copies : List Row}
    (h : m.Rearranges m' i owner before fields behind kept words rest copies) (whole : m.Whole top) :
    m'.Whole top :=
  ⟨h.wellFormed whole.toWellFormed, h.complete whole.toWellFormed whole.complete⟩

theorem row_of_isObject (h : m.isObject i = true) : ∃ r, m.row i = .ok r ∧ r.kind = .object := by
  unfold isObject at h
  obtain ⟨r, hr, hkind⟩ := (Option.any_eq_true _ _).mp h
  exact ⟨r, indexed_eq_ok.mpr hr, of_decide_eq_true hkind⟩

/-- Exchanging two rows of an object leaves the object as it is. -/
theorem swap_whole (whole : m.Whole top) (hrow : m.row i = .ok owner) (kind : owner.kind = .object)
    {j k : Nat} (first : owner.Owns j) (second : owner.Owns k) (h : m.swap j k = .ok m') :
    m'.Whole top ∧ m'.row i = .ok owner := by
  obtain ⟨before, fields, behind, kept, hlength, hrearranges⟩ :=
    swap_rearranges whole.toWellFormed hrow kind first second h
  refine ⟨hrearranges.whole whole, ?_⟩
  have howner := hrearranges.row_owner whole.toWellFormed
  rwa [Rearranges.shrunk, List.append_nil, hlength] at howner

/-- What exchanging two rows of an object keeps, sorting its rows keeps. -/
theorem sortPass_keeps {P : Model → Prop} {pairs j : Nat} {moved : Bool} {result : Model × Bool}
    (keeps : ∀ m m' j k, P m → owner.Owns j → owner.Owns k → m.swap j k = .ok m' → P m')
    (owns : ∀ k, j ≤ k → k ≤ j + pairs → owner.Owns k) (start : P m)
    (h : sortPass pairs j m moved = .ok result) : P result.1 := by
  induction pairs generalizing j m moved with
  | zero =>
    cases h
    exact start
  | succ pairs ih =>
    unfold sortPass at h
    obtain ⟨order, -, h⟩ := bind_eq_ok.mp h
    have hlater : ∀ k, j + 1 ≤ k → k ≤ j + 1 + pairs → owner.Owns k :=
      fun k hlow hhigh => owns k (by omega) (by omega)
    cases order with
    | gt =>
      obtain ⟨m₁, hswap, hrest⟩ := bind_eq_ok.mp h
      exact ih hlater (keeps m m₁ j (j + 1) start (owns j (by omega) (by omega))
        (owns (j + 1) (by omega) (by omega)) hswap) hrest
    | lt => exact ih hlater start h
    | eq => exact ih hlater start h

theorem sortPasses_keeps {P : Model → Prop} {span : Span} {passes : Nat} {moved : Bool}
    {result : Model × Bool}
    (keeps : ∀ m m' j k, P m → owner.Owns j → owner.Owns k → m.swap j k = .ok m' → P m')
    (hspan : owner.members = .ok span) (long : 1 < span.length) (start : P m)
    (h : sortPasses span passes m moved = .ok result) : P result.1 := by
  have howns : ∀ k, span.start ≤ k → k ≤ span.start + (span.length - 1) → owner.Owns k :=
    fun k hlow hhigh => (Row.owns_iff hspan k).mpr ⟨k - span.start, by omega, by omega⟩
  induction passes generalizing m moved with
  | zero =>
    cases h
    exact start
  | succ passes ih =>
    unfold sortPasses at h
    obtain ⟨⟨m₁, now⟩, hpass, h⟩ := bind_eq_ok.mp h
    have hkept := sortPass_keeps keeps howns start hpass
    cases now with
    | true => exact ih hkept h
    | false =>
      obtain rfl := pure_eq_ok.mp h
      exact hkept

theorem sortFields_keeps {P : Model → Prop} {result : Model × Bool}
    (keeps : ∀ m m' j k, P m → owner.Owns j → owner.Owns k → m.swap j k = .ok m' → P m')
    (hrow : m.row i = .ok owner) (start : P m) (h : m.sortFields i = .ok result) : P result.1 := by
  unfold sortFields at h
  obtain ⟨span, hmembers, h⟩ := bind_eq_ok.mp h
  have hspan : owner.members = .ok span := (Model.members_eq hrow).symm.trans hmembers
  split at h
  · obtain rfl := pure_eq_ok.mp h
    exact start
  · exact sortPasses_keeps keeps hspan (by omega) start h

/-- What sorting the fields of all objects keeps, sorting them until nothing moves keeps. -/
theorem sortUntilStable_keeps {P : Model → Prop} {limit passes : Nat} {result : Model × Nat}
    (keeps : ∀ m (result : Model × Bool), P m → m.sortAll = .ok result → P result.1) (start : P m)
    (h : sortUntilStable limit m passes = .ok result) : P result.1 := by
  induction limit generalizing m passes with
  | zero =>
    cases h
    exact start
  | succ limit ih =>
    unfold sortUntilStable at h
    obtain ⟨⟨m₁, moved⟩, hsort, h⟩ := bind_eq_ok.mp h
    have hkept := keeps m _ start hsort
    cases moved with
    | true => exact ih hkept h
    | false =>
      obtain rfl := pure_eq_ok.mp h
      exact hkept

section Keeps

variable {P : Model → Prop} (keeps : ∀ (m m' : Model) i owner before fields behind kept words rest copies,
  m.Whole top → P m → m.Rearranges m' i owner before fields behind kept words rest copies → P m')

include keeps

theorem foldBooleans_rearranges (whole : m.Whole top) (start : P m) (hrow : m.row i = .ok owner)
    (kind : owner.kind = .object) (h : m.foldBooleans i = .ok m') : m'.Whole top ∧ P m' := by
  rcases foldBooleans_folds whole.toWellFormed hrow kind h with ⟨rfl, -⟩ | ⟨_, _, _, hfolds⟩
  · exact ⟨whole, start⟩
  · exact ⟨Rearranges.whole hfolds whole, keeps _ _ _ _ _ _ _ _ _ _ _ whole start hfolds⟩

theorem foldAll_rearranges (whole : m.Whole top) (start : P m) (h : m.foldAll = .ok m') :
    m'.Whole top ∧ P m' := by
  unfold foldAll at h
  refine foldlM_keeps (P := fun m => m.Whole top ∧ P m) ?_ ⟨whole, start⟩ h
  rintro m i m' ⟨hwhole, hP⟩ hfirst
  split at hfirst
  · rename_i hobject
    obtain ⟨r, hrow, hkind⟩ := row_of_isObject hobject
    exact foldBooleans_rearranges keeps hwhole hP hrow hkind hfirst
  · obtain rfl := pure_eq_ok.mp hfirst
    exact ⟨hwhole, hP⟩

theorem sortFields_rearranges {result : Model × Bool} (whole : m.Whole top) (start : P m)
    (hrow : m.row i = .ok owner) (kind : owner.kind = .object) (h : m.sortFields i = .ok result) :
    result.1.Whole top ∧ P result.1 := by
  have hkept : (result.1.Whole top ∧ P result.1) ∧ result.1.row i = .ok owner := by
    refine sortFields_keeps (P := fun m => (m.Whole top ∧ P m) ∧ m.row i = .ok owner) ?_ hrow
      ⟨⟨whole, start⟩, hrow⟩ h
    rintro m m' j k ⟨⟨hwhole, hP⟩, hself⟩ hj hk hswap
    obtain ⟨_, _, _, _, -, hrearranges⟩ :=
      swap_rearranges hwhole.toWellFormed hself kind hj hk hswap
    obtain ⟨hwhole', hself'⟩ := swap_whole hwhole hself kind hj hk hswap
    exact ⟨⟨hwhole', keeps _ _ _ _ _ _ _ _ _ _ _ hwhole hP hrearranges⟩, hself'⟩
  exact hkept.1

theorem sortAll_rearranges {result : Model × Bool} (whole : m.Whole top) (start : P m)
    (h : m.sortAll = .ok result) : result.1.Whole top ∧ P result.1 := by
  unfold sortAll at h
  refine foldlM_keeps (P := fun state : Model × Bool => state.1.Whole top ∧ P state.1) ?_
    ⟨whole, start⟩ h
  rintro ⟨m, moved⟩ i ⟨m', moved'⟩ ⟨hwhole, hP⟩ hfirst
  dsimp only at hfirst
  split at hfirst
  · rename_i hobject
    obtain ⟨r, hrow, hkind⟩ := row_of_isObject hobject
    obtain ⟨⟨m₂, _⟩, hsort, hfirst⟩ := bind_eq_ok.mp hfirst
    have hsorted := sortFields_rearranges keeps hwhole hP hrow hkind hsort
    cases hfirst
    exact hsorted
  · cases hfirst
    exact ⟨hwhole, hP⟩

/-- What rearranging the rows of objects keeps, solving the layout keeps. -/
theorem solve_rearranges {result : Model × Nat} (whole : m.Whole top) (start : P m)
    (h : m.solve = .ok result) : result.1.Whole top ∧ P result.1 := by
  unfold solve at h
  obtain ⟨m₁, hfold, hsort⟩ := bind_eq_ok.mp h
  exact sortUntilStable_keeps (P := fun m => m.Whole top ∧ P m)
    (fun _ _ hkept => sortAll_rearranges keeps hkept.1 hkept.2)
    (foldAll_rearranges keeps whole start hfold) hsort

end Keeps

/-- Solving the layout keeps the forest, and every object below its data unit. -/
theorem solve_whole {result : Model × Nat} (whole : m.Whole top) (h : m.solve = .ok result) :
    result.1.Whole top :=
  (solve_rearranges (P := fun _ => True) (fun _ _ _ _ _ _ _ _ _ _ _ _ _ _ => trivial) whole trivial h).1

/-! ### Texts -/

theorem swap_texts {j : Nat} (h : m.swap i j = .ok m') : m'.texts = m.texts ∧ m'.supply = m.supply := by
  unfold swap at h
  simp only [bind_eq_ok, pure_eq_ok] at h
  obtain ⟨a, -, b, -, rfl⟩ := h
  exact ⟨rfl, rfl⟩

theorem foldBooleans_texts (h : m.foldBooleans i = .ok m') : m'.texts = m.texts ∧ m'.supply = m.supply := by
  unfold foldBooleans at h
  obtain ⟨members, -, h⟩ := bind_eq_ok.mp h
  obtain ⟨fields, -, h⟩ := bind_eq_ok.mp h
  dsimp only at h
  split at h <;> obtain rfl := pure_eq_ok.mp h <;> exact ⟨rfl, rfl⟩

/-- Solving the layout leaves the texts as they are. -/
theorem solve_texts {result : Model × Nat} (h : m.solve = .ok result) :
    result.1.texts = m.texts ∧ result.1.supply = m.supply := by
  unfold solve at h
  obtain ⟨m₁, hfold, hsort⟩ := bind_eq_ok.mp h
  have hfolded : m₁.texts = m.texts ∧ m₁.supply = m.supply := by
    refine foldlM_keeps (P := fun m₁ : Model => m₁.texts = m.texts ∧ m₁.supply = m.supply)
      (fun m₂ i m₃ hkept hturn => ?_) ⟨rfl, rfl⟩ hfold
    split at hturn
    · obtain ⟨htexts, hsupply⟩ := foldBooleans_texts hturn
      exact ⟨htexts.trans hkept.1, hsupply.trans hkept.2⟩
    · cases pure_eq_ok.mp hturn
      exact hkept
  refine sortUntilStable_keeps (P := fun m₁ : Model => m₁.texts = m.texts ∧ m₁.supply = m.supply)
    (fun m₂ sorted hkept hsorted => ?_) hfolded hsort
  refine foldlM_keeps (P := fun state : Model × Bool => state.1.texts = m.texts ∧ state.1.supply = m.supply)
    (fun state i state' hkept hturn => ?_) hkept hsorted
  obtain ⟨m₃, moved⟩ := state
  dsimp only at hturn
  split at hturn
  · rename_i hobject
    obtain ⟨owner, hrow, -⟩ := row_of_isObject hobject
    obtain ⟨⟨m₄, now⟩, hfields, hturn⟩ := bind_eq_ok.mp hturn
    cases pure_eq_ok.mp hturn
    have hsorted := sortFields_keeps (P := fun m₄ : Model => m₄.texts = m.texts ∧ m₄.supply = m.supply)
      (fun _ _ _ _ hkept _ _ hswap => ⟨(swap_texts hswap).1.trans hkept.1, (swap_texts hswap).2.trans hkept.2⟩)
      hrow hkept hfields
    exact hsorted
  · cases pure_eq_ok.mp hturn
    exact hkept

end Model

end ObjectPack
