import ObjectPack.Proofs.Model.Solved
import ObjectPack.Proofs.Model.Sort

/-!
# The fields of an object in a solved model

Between the turns of an object its fields do not change, whatever happens to other objects, but for the
counts of objects among them.  So its fields in a solved model are a function of its former fields: their
booleans are folded once, and they are sorted once in every pass (`Model.solve_fields`).
-/

namespace ObjectPack

open Outcome

/-! ### Rows up to the counts of objects -/

/-- A row without the count that an object has. -/
def Row.face (r : Row) : Row := if r.kind = .object then { r with count := 0 } else r

namespace Row

variable {r a b : Row}

theorem face_of_ne (h : r.kind ≠ .object) : r.face = r := if_neg h

@[simp] theorem face_kind (r : Row) : r.face.kind = r.kind := by
  unfold face
  split <;> rfl

@[simp] theorem face_name (r : Row) : r.face.name = r.name := by
  unfold face
  split <;> rfl

@[simp] theorem face_value (r : Row) : r.face.value = r.value := by
  unfold face
  split <;> rfl

@[simp] theorem face_alignment? (r : Row) : r.face.alignment? = r.alignment? := by
  rw [alignment?, alignment?, face_kind, face_value]

@[simp] theorem face_size? (r : Row) : r.face.size? = r.size? := by
  rw [size?, size?, face_kind, face_value]

@[simp] theorem order_face (a b : Row) : a.face.order b.face = a.order b := by
  simp [order]

end Row

namespace Model

variable {m m' m₁ m₂ : Model} {top i j k t : Nat} {o r owner : Row} {p q : Nat → Nat}
  {states : Nat → Model} {places : Nat → Nat → Nat}

@[simp] theorem foldedRow_face (m : Model) (r : Row) : (m.foldedRow r).face = r.face := by
  unfold foldedRow
  split
  · rename_i hobject
    rw [Row.face, Row.face, if_pos hobject, if_pos hobject]
  · rfl

/-! ### Sorting and folding lists -/

theorem bubble_map {f : Row → Row} (same : ∀ a b, (f a).order (f b) = a.order b) (a : Row)
    (l : List Row) : bubble (f a) (l.map f) = (bubble a l).map f := by
  induction l generalizing a with
  | nil => rfl
  | cons b rest ih =>
    rw [List.map_cons]
    unfold bubble
    rw [same]
    split
    · rw [ih, List.map_cons]
    · rw [ih, List.map_cons]

theorem bubblePass_map {f : Row → Row} (same : ∀ a b, (f a).order (f b) = a.order b) (l : List Row) :
    bubblePass (l.map f) = (bubblePass l).map f := by
  cases l with
  | nil => rfl
  | cons a rest => exact bubble_map same a rest

theorem sorted_map {f : Row → Row} (same : ∀ a b, (f a).order (f b) = a.order b) (l : List Row) :
    sorted (l.map f) = (sorted l).map f := by
  have hpass : Function.Semiconj (List.map f) bubblePass bubblePass := fun l =>
    (bubblePass_map same l).symm
  rw [sorted, sorted, List.length_map]
  exact ((hpass.iterate_right l.length).eq l).symm

/-- The fields of an object when its booleans have been folded, and the booleans have been copied to the
rows from `start` on. -/
def foldedFields (start : Nat) (l : List Row) : List Row :=
  l.filter (·.kind ≠ .bool) ++ bitSetRows (bitSetCount (l.filter (·.kind = .bool)).length) start
    (l.filter (·.kind = .bool))

theorem foldedFields_face (start : Nat) (l : List Row) :
    foldedFields start (l.map Row.face) = (foldedFields start l).map Row.face := by
  have hothers : (l.map Row.face).filter (·.kind ≠ .bool) = (l.filter (·.kind ≠ .bool)).map Row.face := by
    rw [List.filter_map]
    congr 2
    funext r
    rw [Function.comp_apply, Row.face_kind]
  have hbools : (l.map Row.face).filter (·.kind = .bool) = l.filter (·.kind = .bool) := by
    rw [List.filter_map]
    have hsame : ((fun r : Row => decide (r.kind = .bool)) ∘ Row.face) =
        fun r => decide (r.kind = .bool) := by
      funext r
      rw [Function.comp_apply, Row.face_kind]
    rw [hsame]
    refine (List.map_congr_left fun r hr => Row.face_of_ne ?_).trans (List.map_id _)
    rw [of_decide_eq_true (List.mem_filter.mp hr).2]
    decide
  have hwords : ∀ groups bools, (bitSetRows groups start bools).map Row.face =
      bitSetRows groups start bools := by
    intro groups bools
    refine (List.map_congr_left fun w hw => Row.face_of_ne ?_).trans (List.map_id _)
    rw [(bitSetRows_spec hw).1]
    decide
  rw [foldedFields, foldedFields, List.map_append, hothers, hbools, hwords]

/-! ### Fields that do not change -/

/-- The fields of an object are the same, as far as `f` tells, where its rows are. -/
theorem fields_map_congr {α : Type} {f : Row → α} (kind : o.kind = .object) (inside : ∀ j, o.Owns j → j < m.size)
    (same : ∀ j r, o.Owns j → m.row j = .ok r → ∃ r', m'.row j = .ok r' ∧ f r' = f r) :
    (m'.fields o).map f = (m.fields o).map f := by
  cases hstart : o.start with
  | none =>
    rw [fields, fields, hstart]
    rfl
  | some start =>
    apply List.ext_getElem?
    intro x
    rw [List.getElem?_map, List.getElem?_map]
    by_cases hx : x < o.count
    · rw [getElem?_fields hstart hx, getElem?_fields hstart hx]
      have howns : o.Owns (start + x) := ⟨start, hstart, by omega, by
        rw [Row.ownedCount_of_object kind]
        omega⟩
      obtain ⟨r, hr⟩ := exists_row_of_lt (inside _ howns)
      obtain ⟨r', hr', hf⟩ := same _ r howns hr
      rw [row_eq_ok.mp hr, row_eq_ok.mp hr']
      exact congrArg some hf
    · have hshort : ∀ m : Model, (m.fields o)[x]? = none := by
        intro m
        rw [fields, hstart, Option.elim_some]
        exact List.getElem?_eq_none ((List.length_take_le _ _).trans (Nat.le_of_not_lt hx))
      rw [hshort m, hshort m']

theorem fields_congr (kind : o.kind = .object) (inside : ∀ j, o.Owns j → j < m.size)
    (same : ∀ j r, o.Owns j → m.row j = .ok r → m'.row j = .ok r) : m'.fields o = m.fields o := by
  have hmap := fields_map_congr (f := id) kind inside fun j r howns hrow => ⟨r, same j r howns hrow, rfl⟩
  rwa [List.map_id, List.map_id] at hmap

/-! ### Turns -/

/-- Folding the booleans of an object folds the list of its fields. -/
theorem foldBooleans_fields (whole : m.Whole top) (object : m.IsObject i owner)
    (h : m.foldBooleans i = .ok m') :
    m'.fields (m.foldedRow owner) = foldedFields m.size (m.fields owner) := by
  have wellFormed := whole.toWellFormed
  rcases foldBooleans_folds wellFormed object.1 object.2 h with
    ⟨rfl, hnone⟩ | ⟨before, fields, behind, hfolds⟩
  · have hothers : ∀ r ∈ m'.fields owner, r.kind ≠ .bool := by
      intro r hr
      obtain ⟨j, howns, hrow⟩ := exists_of_mem_fields object.2 hr
      exact hnone j r howns hrow
    have hbools : (m'.fields owner).filter (·.kind = .bool) = [] :=
      List.filter_eq_nil_iff.mpr fun r hr hbool => hothers r hr (of_decide_eq_true hbool)
    rw [wellFormed.foldedRow_eq_self object hnone, foldedFields, hbools,
      List.filter_eq_self.mpr fun r hr => decide_eq_true (hothers r hr)]
    exact (List.append_nil _).symm
  · rw [fields_of_split hfolds.rows hfolds.start hfolds.count, hfolds.foldedRow_eq]
    exact fields_eq hfolds.start rfl fun _ _ hr => hfolds.row_range wellFormed hr

/-- While booleans are folded, the fields of an object change at its turn only. -/
theorem foldTurn_fields (whole : m.Whole top) (whole' : m₁.Whole top)
    (tracks : Tracks m m₁ (p · < t) p) (object : m.IsObject i o) (h : m₁.foldTurn t = .ok m₂) :
    (p i = t → m₂.fields (m.foldedRow o) = foldedFields m₁.size (m₁.fields o)) ∧
      (p i ≠ t → ∀ o' : Row, o'.kind = .object → (∀ j, o'.Owns j → o.Owns j) →
        (m₂.fields o').map Row.face = (m₁.fields o').map Row.face) := by
  constructor
  · rintro rfl
    have hobject : m₁.IsObject (p i) o := ⟨tracks.waiting i o object.1 (Nat.lt_irrefl _), object.2⟩
    unfold foldTurn at h
    rw [if_pos (isObject_eq_true.mpr ⟨o, hobject⟩)] at h
    rw [← tracks.foldedRow_waiting whole.toWellFormed object (Nat.lt_irrefl _)]
    exact foldBooleans_fields whole' hobject h
  · intro hne o' hkind hless
    have hinside : ∀ j, o'.Owns j → j < m₁.size := fun j howns =>
      Nat.lt_of_lt_of_le (whole.inside i o object.1 j (hless j howns)) tracks.size_le
    unfold foldTurn at h
    split at h
    · rename_i hturn
      obtain ⟨owner, howner⟩ := isObject_eq_true.mp hturn
      obtain ⟨k, o₁, ho₁, rfl⟩ := tracks.objects t owner howner
      obtain rfl := Except.ok.inj
        ((tracks.waiting k o₁ ho₁.1 (Nat.lt_irrefl _)).symm.trans howner.1)
      obtain ⟨q, hq⟩ := foldBooleans_tracks whole'.toWellFormed howner h
      refine fields_map_congr hkind hinside fun j r howns hrow => ?_
      have hstill : q j = j := by
        apply hq.still
        rintro l o₂ ho₂ rfl howns'
        obtain rfl := Except.ok.inj (ho₂.1.symm.trans howner.1)
        exact hne (congrArg p
          (whole.eq_of_owns object.1 ho₁.1 (hless j howns) howns' object.kind_ne))
      rcases hq.row hrow with hsame | hsame
      · exact ⟨r, hstill ▸ hsame, rfl⟩
      · exact ⟨_, hstill ▸ hsame, foldedRow_face m₁ r⟩
    · obtain rfl := pure_eq_ok.mp h
      rfl

/-- While fields are sorted, those of an object change at its turn only. -/
theorem sortTurn_fields (whole : m.Whole top) (whole' : m₁.Whole top) (ordered : m₁.Ordered)
    (tracks : Tracks m m₁ (fun _ => True) p) (object : m.IsObject i o) (h : m₁.sortTurn t = .ok m₂) :
    m₂.fields (m.foldedRow o) =
      if p i = t then sorted (m₁.fields (m.foldedRow o)) else m₁.fields (m.foldedRow o) := by
  have hkind : (m.foldedRow o).kind = .object := (foldedRow_kind m o).trans object.2
  have hinside : ∀ j, (m.foldedRow o).Owns j → j < m₁.size := fun j howns =>
    Nat.lt_of_lt_of_le (whole.inside i o object.1 j (owns_of_foldedRow howns)) tracks.size_le
  unfold sortTurn at h
  split at h
  · rename_i hturn
    obtain ⟨owner, howner⟩ := isObject_eq_true.mp hturn
    obtain ⟨result, hsort, rfl⟩ := map_eq_ok.mp h
    split
    · rename_i hpi
      subst hpi
      obtain rfl := Except.ok.inj ((tracks.folded i o object.1 trivial).symm.trans howner.1)
      exact sortFields_fields howner hinside
        (aligned_fields hkind fun j r hrow => (whole'.fits j r hrow).exists_enum) hsort
    · rename_i hne
      obtain ⟨k, o₁, ho₁, rfl⟩ := tracks.objects t owner howner
      obtain rfl := Except.ok.inj ((tracks.folded k o₁ ho₁.1 trivial).symm.trans howner.1)
      -- Another object is sorted, and no two objects own a row together.
      obtain ⟨-, -, σ, hrows, houtside⟩ := sortFields_permutes whole' ordered howner hsort
      refine fields_congr hkind hinside fun j r howns hrow => ?_
      have hσ : σ j = j := by
        apply houtside
        intro howns'
        exact hne (congrArg p (whole.eq_of_owns object.1 ho₁.1 (owns_of_foldedRow howns)
          (owns_of_foldedRow howns') object.kind_ne))
      have hsame := hrows j
      rw [hσ] at hsame
      exact hsame.trans hrow
  · rename_i hnone
    obtain rfl := pure_eq_ok.mp h
    rw [if_neg]
    rintro rfl
    exact hnone (isObject_eq_true.mpr ⟨_, tracks.folded i o object.1 trivial, hkind⟩)

/-! ### Tours -/

/-- What every turn keeps, a tour keeps. -/
theorem Tour.keeps {n : Nat} {turn : Model → Nat → Except Fault Model} {done : Nat → Nat → Prop}
    {P : Model → Prop} (h : Tour m n turn done states places) (start : P (states 0))
    (turns : ∀ m t m', P m → turn m t = .ok m' → P m') : ∀ t ≤ n, P (states t) := by
  intro t ht
  induction t with
  | zero => exact start
  | succ t ih => exact turns _ t _ (ih (by omega)) (h.turns t ht)

theorem foldTurn_keeps (keeps : m.Whole top ∧ m.Ordered) (h : m.foldTurn t = .ok m') :
    m'.Whole top ∧ m'.Ordered := by
  unfold foldTurn at h
  split at h
  · rename_i hobject
    obtain ⟨owner, howner⟩ := isObject_eq_true.mp hobject
    exact foldBooleans_keeps keeps.1 keeps.2 howner h
  · obtain rfl := pure_eq_ok.mp h
    exact keeps

theorem sortTurn_keeps (keeps : m.Whole top ∧ m.Ordered) (h : m.sortTurn t = .ok m') :
    m'.Whole top ∧ m'.Ordered := by
  unfold sortTurn at h
  split at h
  · rename_i hobject
    obtain ⟨owner, howner⟩ := isObject_eq_true.mp hobject
    obtain ⟨result, hsort, rfl⟩ := map_eq_ok.mp h
    obtain ⟨hwhole, hordered, -⟩ := sortFields_permutes keeps.1 keeps.2 howner hsort
    exact ⟨hwhole, hordered⟩
  · obtain rfl := pure_eq_ok.mp h
    exact keeps

/-- What an object has up to its turn and the turn turns into something that stays, it has at the end. -/
theorem Tour.behind {n : Nat} {turn : Model → Nat → Except Fault Model} {done : Nat → Nat → Prop}
    {A B : Nat → Prop} (h : Tour m n turn done states places) (object : m.IsObject i o) (start : A 0)
    (before : ∀ t < n, places t i ≠ t → A t → A (t + 1))
    (meets : ∀ t < n, places t i = t → A t → B (t + 1))
    (behind : ∀ t < n, places t i ≠ t → B t → B (t + 1)) : B n := by
  obtain ⟨s, ⟨hs, hps⟩, hunique⟩ := h.once i o object
  have hother : ∀ t < n, t ≠ s → places t i ≠ t := fun t ht hne hpt => hne (hunique t ⟨ht, hpt⟩)
  have hbefore : ∀ t ≤ s, A t := by
    intro t ht
    induction t with
    | zero => exact start
    | succ t ih => exact before t (by omega) (hother t (by omega) (by omega)) (ih (by omega))
  have hbehind : ∀ k, s + 1 + k ≤ n → B (s + 1 + k) := by
    intro k hk
    induction k with
    | zero => exact meets s hs hps (hbefore s (Nat.le_refl s))
    | succ k ih =>
      have hne := hother (s + 1 + k) (by omega) (by omega)
      exact behind (s + 1 + k) (by omega) hne (ih (by omega))
  have hend := hbehind (n - (s + 1)) (by omega)
  rwa [Nat.add_sub_cancel' hs] at hend

/-- Folding all booleans folds the list of the fields of every object. -/
theorem FoldedOnce.fields (h : m.FoldedOnce m' q) (whole : m.Whole top) (ordered : m.Ordered)
    (object : m.IsObject i o) : ∃ start, (m'.fields (m.foldedRow o)).map Row.face =
      (foldedFields start (m.fields o)).map Row.face := by
  obtain ⟨states, places, htour, rfl, rfl, -, -⟩ := h
  have hkeeps := htour.keeps (P := fun m => m.Whole top ∧ m.Ordered) ⟨whole, ordered⟩
    fun _ _ _ hkeeps hturn => foldTurn_keeps hkeeps hturn
  have hkind : ((states 0).foldedRow o).kind = .object := (foldedRow_kind _ o).trans object.2
  have hturn := fun t (ht : t < (states 0).size) => foldTurn_fields whole (hkeeps t (by omega)).1
    (htour.tracks t (by omega)) object (htour.turns t ht)
  -- Up to its turn the object has its former fields, and the folded ones behind it.
  refine htour.behind object
    (A := fun t => ((states t).fields o).map Row.face = ((states 0).fields o).map Row.face)
    (B := fun t => ∃ start, ((states t).fields ((states 0).foldedRow o)).map Row.face =
      (foldedFields start ((states 0).fields o)).map Row.face) rfl ?_ ?_ ?_
  · intro t ht hpt hformer
    exact ((hturn t ht).2 hpt o object.2 fun _ => id).trans hformer
  · intro t ht hpt hformer
    refine ⟨(states t).size, ?_⟩
    rw [(hturn t ht).1 hpt, ← foldedFields_face, ← foldedFields_face, hformer]
  · rintro t ht hpt ⟨start, hstart⟩
    exact ⟨start, ((hturn t ht).2 hpt _ hkind fun _ => owns_of_foldedRow).trans hstart⟩

/-- A pass sorts the list of the fields of every object. -/
theorem SortedOnce.fields (h : m.SortedOnce m₁ m₂ p q) (whole : m.Whole top) (whole' : m₁.Whole top)
    (ordered : m₁.Ordered) (object : m.IsObject i o) : (m₂.Whole top ∧ m₂.Ordered) ∧
      m₂.fields (m.foldedRow o) = sorted (m₁.fields (m.foldedRow o)) := by
  obtain ⟨states, places, htour, rfl, rfl, -, -⟩ := h
  have hkeeps := htour.keeps (P := fun m => m.Whole top ∧ m.Ordered) ⟨whole', ordered⟩
    fun _ _ _ hkeeps hturn => sortTurn_keeps hkeeps hturn
  have hturn := fun t (ht : t < (states 0).size) => sortTurn_fields whole (hkeeps t (by omega)).1
    (hkeeps t (by omega)).2 (htour.tracks t (by omega)) object (htour.turns t ht)
  refine ⟨hkeeps _ (Nat.le_refl _), ?_⟩
  refine htour.behind object
    (A := fun t => (states t).fields (m.foldedRow o) = (states 0).fields (m.foldedRow o))
    (B := fun t => (states t).fields (m.foldedRow o) = sorted ((states 0).fields (m.foldedRow o)))
    rfl ?_ ?_ ?_
  · intro t ht hpt hformer
    rw [hturn t ht, if_neg hpt, hformer]
  · intro t ht hpt hformer
    rw [hturn t ht, if_pos hpt, hformer]
  · intro t ht hpt hsorted
    rw [hturn t ht, if_neg hpt, hsorted]

/-- An object whose booleans have been folded owns a range of indices. -/
theorem FoldedOnce.members (h : m.FoldedOnce m' q) (object : m.IsObject i o) :
    ∃ span, o.members = .ok span := by
  obtain ⟨states, places, htour, -⟩ := h
  obtain ⟨t, ⟨ht, hpt⟩, -⟩ := htour.once i o object
  have hrow := (htour.tracks t (by omega)).waiting i o object.1 (by rw [hpt]; exact Nat.lt_irrefl t)
  have hturn := htour.turns t ht
  rw [hpt] at hrow
  unfold foldTurn foldBooleans at hturn
  rw [if_pos (isObject_eq_true.mpr ⟨o, hrow, object.2⟩)] at hturn
  obtain ⟨span, hspan, -⟩ := bind_eq_ok.mp hturn
  exact ⟨span, (members_eq hrow).symm.trans hspan⟩

theorem SortedInPasses.fields {n : Nat} (h : m.SortedInPasses n m₁ p m₂ q) (whole : m.Whole top)
    (whole' : m₁.Whole top) (ordered : m₁.Ordered) (object : m.IsObject i o) :
    m₂.fields (m.foldedRow o) = sorted^[n] (m₁.fields (m.foldedRow o)) := by
  induction h with
  | none => rfl
  | pass _ once _ ih =>
    obtain ⟨⟨hwhole, hordered⟩, hfields⟩ := once.fields whole whole' ordered object
    rw [Function.iterate_succ_apply, ← hfields]
    exact ih hwhole hordered

/-- The fields of an object in a solved model are a function of its former ones: they are folded once and
sorted in every pass. -/
theorem solve_fields {passes : Nat} {place : Nat → Nat} (solved : m.Solved m' passes place)
    (whole : m.Whole top) (ordered : m.Ordered) (object : m.IsObject i o) :
    ∃ start, (m'.fields (m.foldedRow o)).map Row.face =
      sorted^[passes] ((foldedFields start (m.fields o)).map Row.face) := by
  obtain ⟨m₁, p, hfold, honce, hpasses⟩ := solved.visits
  obtain ⟨q, hwhole, hordered, -⟩ := foldAll_foldedOnce whole ordered hfold
  obtain ⟨start, hfolded⟩ := honce.fields whole ordered object
  have hsorted : Function.Semiconj (List.map Row.face) sorted sorted := fun l =>
    (sorted_map Row.order_face l).symm
  refine ⟨start, ?_⟩
  rw [hpasses.fields whole hwhole hordered object, ← hfolded]
  exact (hsorted.iterate_right passes).eq _

/-- The range of an object in a solved model holds its fields. -/
theorem Solved.members {passes start : Nat} {place : Nat → Nat} (solved : m.Solved m' passes place)
    (whole : m.Whole top) (object : m.IsObject i o) (hstart : o.start = some start) :
    m'.members (place i) = .ok ⟨start, (m'.fields (m.foldedRow o)).length⟩ ∧
      ∀ x r, (m'.fields (m.foldedRow o))[x]? = some r → m'.row (start + x) = .ok r := by
  obtain ⟨m₁, p, -, honce, -⟩ := solved.visits
  obtain ⟨span, hspan⟩ := honce.members object
  have hkind : (m.foldedRow o).kind = .object := (foldedRow_kind m o).trans object.2
  have hstart' : (m.foldedRow o).start = some start := (m.foldedRow_start o).trans hstart
  have hcount : (m.foldedRow o).count = m.foldedCount o := by rw [foldedRow, if_pos object.2]
  have hle := m.foldedCount_le o
  have hlength := length_fields (m := m') (fun j howns => Nat.lt_of_lt_of_le
    (whole.inside i o object.1 j (owns_of_foldedRow howns)) solved.size_le) hkind hstart'
  have hlimit : start + o.count < indexLimit := by
    rw [Row.members_of_start hstart (by rw [object.2]; decide), Row.ownedCount_of_object object.2] at hspan
    exact (spanFrom_eq_ok.mp hspan).1
  constructor
  · rw [members_eq (solved.row i o object.1), Row.members_of_start hstart' (by rw [hkind]; decide),
      Row.ownedCount_of_object hkind, hlength, hcount]
    exact spanFrom_of_lt (by omega)
  · intro x r hr
    have hx : x < (m.foldedRow o).count := hlength ▸ (List.getElem?_eq_some_iff.mp hr).1
    rw [getElem?_fields hstart' hx] at hr
    exact row_eq_ok.mpr hr

end Model

end ObjectPack
