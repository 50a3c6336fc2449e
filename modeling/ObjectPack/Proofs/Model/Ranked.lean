import Mathlib.Data.List.Perm.Basic
import ObjectPack.Proofs.Model.Schedule

/-!
# Sorted fields

A pass takes the greatest of the fields that are not settled yet to those that are, so an object's turn sorts
its fields (`Model.sorted_pairwise`).  Fields of different names come into one order only, whatever order
they have had (`Model.iterate_sorted_eq`).  So, up to where other rows stand, the fields of an object in a
solved model are decided by which fields it has, and in which order its booleans are
(`Model.solvedFields_eq`).
-/

namespace ObjectPack

open Outcome

namespace Row

/-- Whether a field does not have to stand behind another one. -/
def Before (a b : Row) : Prop := a.order b ≠ .gt

variable {a b c : Row}

theorem Before.refl (a : Row) : a.Before a := by
  rw [Before, order_self]
  decide

theorem Before.trans (h : a.Before b) (h' : b.Before c) : a.Before c := Std.TransCmp.le_trans h h'

theorem before_of_gt (h : a.order b = .gt) : b.Before a := by
  rw [Before, Std.OrientedCmp.lt_of_gt h]
  decide

/-- Fields that may stand on either side of each other have one kind and one name. -/
theorem Before.antisymm (h : a.Before b) (h' : b.Before a) : a.kind = b.kind ∧ a.name = b.name := by
  have hsame : a.order b = .eq := by
    cases hab : a.order b with
    | eq => rfl
    | gt => exact absurd hab h
    | lt => exact absurd (Std.OrientedCmp.gt_of_lt hab) h'
  obtain ⟨-, hkey⟩ := Ordering.then_eq_eq.mp hsame
  obtain ⟨hkind, hname⟩ := Ordering.then_eq_eq.mp hkey
  refine ⟨?_, Std.LawfulEqCmp.eq_of_compare hname⟩
  have hindex := Std.LawfulEqCmp.eq_of_compare hkind
  exact Option.some.inj ((Kind.ofIndex?_index a.kind).symm.trans (hindex ▸ Kind.ofIndex?_index b.kind))

end Row

namespace Model

variable {m m' : Model} {a b : Row} {l l' front back : List Row} {n k start start' : Nat}

/-! ### Passes -/

/-- A pass takes the greatest field to the end. -/
theorem bubble_greatest (a : Row) (l : List Row) : ∃ front last, bubble a l = front ++ [last] ∧
    ∀ b ∈ a :: l, b.Before last := by
  induction l generalizing a with
  | nil =>
    refine ⟨[], a, rfl, fun b hb => ?_⟩
    rw [List.mem_singleton.mp hb]
    exact .refl a
  | cons c rest ih =>
    unfold bubble
    split
    · rename_i hgreater
      obtain ⟨front, last, hbubble, hlast⟩ := ih a
      refine ⟨c :: front, last, by rw [hbubble, List.cons_append], fun b hb => ?_⟩
      rcases List.mem_cons.mp hb with rfl | hb
      · exact hlast b List.mem_cons_self
      · rcases List.mem_cons.mp hb with rfl | hb
        · exact (Row.before_of_gt hgreater).trans (hlast a List.mem_cons_self)
        · exact hlast b (List.mem_cons_of_mem a hb)
    · rename_i hbefore
      obtain ⟨front, last, hbubble, hlast⟩ := ih c
      refine ⟨a :: front, last, by rw [hbubble, List.cons_append], fun b hb => ?_⟩
      rcases List.mem_cons.mp hb with rfl | hb
      · exact Row.Before.trans hbefore (hlast c List.mem_cons_self)
      · exact hlast b hb

/-- Fields that are in order stay where they are. -/
theorem bubble_of_pairwise (h : (a :: l).Pairwise Row.Before) : bubble a l = a :: l := by
  induction l generalizing a with
  | nil => rfl
  | cons b rest ih =>
    obtain ⟨hfirst, hrest⟩ := List.pairwise_cons.mp h
    unfold bubble
    rw [if_neg (hfirst b List.mem_cons_self), ih hrest]

/-- Fields that are in order, and none of which has to stand in front, stay behind the others. -/
theorem bubble_append (ordered : back.Pairwise Row.Before) (a : Row)
    (behind : ∀ b ∈ a :: front, ∀ c ∈ back, b.Before c) : bubble a (front ++ back) = bubble a front ++ back := by
  induction front generalizing a with
  | nil =>
    refine bubble_of_pairwise (List.pairwise_cons.mpr ⟨fun c hc => ?_, ordered⟩)
    exact behind a List.mem_cons_self c hc
  | cons b rest ih =>
    rw [List.cons_append]
    unfold bubble
    split
    · rw [List.cons_append, ih a fun d hd => behind d ?_]
      exact List.mem_cons.mpr ((List.mem_cons.mp hd).imp_right (List.mem_cons_of_mem b))
    · rw [List.cons_append, ih b fun d hd => behind d (List.mem_cons_of_mem a hd)]

/-- Whether all fields but some number of them at the front have come to their places. -/
def Settled (n : Nat) (l : List Row) : Prop :=
  ∃ front back, l = front ++ back ∧ front.length ≤ n ∧ back.Pairwise Row.Before ∧
    ∀ a ∈ front, ∀ b ∈ back, a.Before b

/-- Every pass brings one field more to its place. -/
theorem Settled.bubblePass (h : Settled (n + 1) l) : Settled n (bubblePass l) := by
  obtain ⟨front, back, rfl, hlength, hordered, hbehind⟩ := h
  cases front with
  | nil =>
    refine ⟨[], back, ?_, Nat.zero_le n, hordered, fun _ ha => absurd ha List.not_mem_nil⟩
    rw [List.nil_append]
    cases back with
    | nil => rfl
    | cons b rest => exact bubble_of_pairwise hordered
  | cons a front =>
    obtain ⟨rest, last, hbubble, hlast⟩ := bubble_greatest a front
    have hperm := bubble_perm a front
    rw [hbubble] at hperm
    have hmem : ∀ b ∈ rest, b ∈ a :: front := fun b hb => hperm.subset (List.mem_append_left _ hb)
    refine ⟨rest, last :: back, ?_, ?_, List.pairwise_cons.mpr ⟨fun b hb => ?_, hordered⟩, fun b hb c hc => ?_⟩
    · rw [List.cons_append]
      exact (bubble_append hordered a hbehind).trans (by rw [hbubble, List.append_assoc]; rfl)
    · have hcount := hperm.length_eq
      simp only [List.length_append, List.length_cons, List.length_nil] at hcount hlength
      omega
    · exact hbehind last (hperm.subset (List.mem_append_right _ List.mem_cons_self)) b hb
    · rcases List.mem_cons.mp hc with rfl | hc
      · exact hlast b (hmem b hb)
      · exact hbehind b (hmem b hb) c hc

theorem Settled.iterate (h : Settled n l) : Settled 0 (Model.bubblePass^[n] l) := by
  induction n generalizing l with
  | zero => exact h
  | succ n ih =>
    rw [Function.iterate_succ_apply]
    exact ih h.bubblePass

/-- The turn of an object sorts its fields. -/
theorem sorted_pairwise (l : List Row) : (sorted l).Pairwise Row.Before := by
  have hstart : Settled l.length l :=
    ⟨l, [], (List.append_nil l).symm, Nat.le_refl _, .nil, fun _ _ _ hb => absurd hb List.not_mem_nil⟩
  obtain ⟨front, back, hsorted, hlength, hordered, -⟩ := hstart.iterate
  obtain rfl := List.eq_nil_of_length_eq_zero (Nat.le_zero.mp hlength)
  rw [sorted, hsorted]
  exact hordered

/-- Whether no two different fields have one kind and one name. -/
def Distinct (l : List Row) : Prop := ∀ a ∈ l, ∀ b ∈ l, a.kind = b.kind → a.name = b.name → a = b

/-- Sorting forgets the order in which fields have been. -/
theorem iterate_sorted_eq (perm : l.Perm l') (distinct : Distinct l) (n k : Nat) :
    sorted^[n + 1] l = sorted^[k + 1] l' := by
  have hperm : (sorted^[n + 1] l).Perm l := iterate_perm sorted_perm (n + 1) l
  have hperm' : (sorted^[k + 1] l').Perm l := (iterate_perm sorted_perm (k + 1) l').trans perm.symm
  have hpairwise : ∀ (n : Nat) (l : List Row), (sorted^[n + 1] l).Pairwise Row.Before := fun n l => by
    rw [Function.iterate_succ_apply']
    exact sorted_pairwise _
  refine List.Perm.eq_of_pairwise (fun a b ha hb hab hba => ?_) (hpairwise n l) (hpairwise k l') (hperm.trans hperm'.symm)
  obtain ⟨hkind, hname⟩ := hab.antisymm hba
  exact distinct a (hperm.subset ha) b (hperm'.subset hb) hkind hname

end Model

/-! ### Rows wherever they stand -/

/-- A row without what tells where other rows stand, and without its type name. -/
def Row.bare (r : Row) : Row := { r.face with typeName := none, start := none }

namespace Row

@[simp] theorem bare_kind (r : Row) : r.bare.kind = r.kind := face_kind r

@[simp] theorem bare_name (r : Row) : r.bare.name = r.name := face_name r

@[simp] theorem bare_value (r : Row) : r.bare.value = r.value := face_value r

@[simp] theorem bare_face (r : Row) : r.face.bare = r.bare := by
  have hface : r.face.face = r.face := by
    unfold face
    split <;> rfl
  rw [bare, hface]
  rfl

/-- Rows that are the same wherever they stand have one kind, one name and one value. -/
theorem eq_of_bare {a b : Row} (h : a.bare = b.bare) : b.kind = a.kind ∧ b.name = a.name ∧ b.value = a.value :=
  ⟨by rw [← bare_kind b, ← h, bare_kind], by rw [← bare_name b, ← h, bare_name], by rw [← bare_value b, ← h, bare_value]⟩

theorem bare_count {r : Row} (h : r.kind ≠ .object) : r.bare.count = r.count := by
  rw [bare, face_of_ne h]

@[simp] theorem order_bare (a b : Row) : a.bare.order b.bare = a.order b := by
  simp [order, alignment?]

end Row

namespace Model

variable {m m' m₁ m₁' : Model} {o o' r : Row} {l l' bools : List Row} {i j n k top top' start start' groups : Nat}
  {place place' : Nat → Nat}

theorem filter_bare (p : Kind → Bool) (l : List Row) :
    (l.map Row.bare).filter (p ·.kind) = (l.filter (p ·.kind)).map Row.bare := by
  rw [List.filter_map]
  congr 2
  funext r
  rw [Function.comp_apply, Row.bare_kind]

theorem bitsOf_bare (bools : List Row) : bitsOf (bools.map Row.bare) = bitsOf bools := by
  induction bools with
  | nil => rfl
  | cons r rest ih => rw [List.map_cons, bitsOf, bitsOf, ih, Row.bare_value]

theorem headName_bare (bools : List Row) :
    (bools.map Row.bare).head?.map (·.name) = bools.head?.map (·.name) := by
  cases bools with
  | nil => rfl
  | cons r rest => exact congrArg some (Row.bare_name r)

/-- What a word holds is decided by what its booleans hold. -/
theorem bitSetRow_bare (same : l.map Row.bare = l'.map Row.bare) (start start' : Nat) :
    (bitSetRow start l).bare = (bitSetRow start' l').bare := by
  have hlength : l.length = l'.length := by
    rw [← List.length_map Row.bare, same, List.length_map]
  unfold bitSetRow
  rw [← bitsOf_bare l, ← headName_bare l, hlength, same, bitsOf_bare, headName_bare]
  rfl

theorem bitSetRows_bare (same : l.map Row.bare = l'.map Row.bare) (groups start start' : Nat) :
    (bitSetRows groups start l).map Row.bare = (bitSetRows groups start' l').map Row.bare := by
  induction groups generalizing start start' l l' with
  | zero => rfl
  | succ groups ih =>
    have hfirst : (l.take boolsPerWord).map Row.bare = (l'.take boolsPerWord).map Row.bare := by
      rw [List.map_take, same, List.map_take]
    have hrest : (l.drop boolsPerWord).map Row.bare = (l'.drop boolsPerWord).map Row.bare := by
      rw [List.map_drop, same, List.map_drop]
    rw [bitSetRows, bitSetRows, List.map_cons, List.map_cons, bitSetRow_bare hfirst, ih hrest]

/-- Which fields an object has when its booleans have been folded is decided by which fields it has had, and
by the order of its booleans. -/
theorem foldedFields_perm (perm : (l.map Row.bare).Perm (l'.map Row.bare))
    (bools : (l.filter (·.kind = .bool)).map Row.bare = (l'.filter (·.kind = .bool)).map Row.bare)
    (start start' : Nat) :
    ((foldedFields start l).map Row.bare).Perm ((foldedFields start' l').map Row.bare) := by
  have hothers := perm.filter (fun r => decide (r.kind ≠ .bool))
  rw [filter_bare (fun kind => decide (kind ≠ .bool)), filter_bare (fun kind => decide (kind ≠ .bool))] at hothers
  have hlength : (l.filter (·.kind = .bool)).length = (l'.filter (·.kind = .bool)).length := by
    rw [← List.length_map Row.bare, bools, List.length_map]
  rw [foldedFields, foldedFields, List.map_append, List.map_append, hlength, bitSetRows_bare bools _ start start']
  exact hothers.append_right _

/-- Words bear the names of booleans of their own. -/
theorem names_bitSetRows (h : groups ≤ bitSetCount bools.length) :
    ((bitSetRows groups start bools).map (·.name)).Sublist (bools.map (·.name)) := by
  induction groups generalizing start bools with
  | zero => exact List.nil_sublist _
  | succ groups ih =>
    cases bools with
    | nil => exact absurd (Nat.lt_of_succ_le h) (Nat.not_lt_zero groups)
    | cons b rest =>
      have hrest : groups ≤ bitSetCount ((b :: rest).drop boolsPerWord).length := by
        rw [List.length_drop]
        unfold bitSetCount boolsPerWord at h ⊢
        omega
      exact ((ih hrest).trans ((List.drop_sublist _ rest).map _)).cons_cons b.name

/-- Fields of different names are still different when booleans have been folded. -/
theorem foldedFields_distinct (names : (l.map (·.name)).Nodup) (noWord : ∀ r ∈ l, r.kind ≠ .bitSet)
    (start : Nat) : Distinct (foldedFields start l) := by
  have hbools : ((l.filter (·.kind = .bool)).map (·.name)).Nodup := (List.filter_sublist.map _).nodup names
  have hwords : ((bitSetRows (bitSetCount (l.filter (·.kind = .bool)).length) start
      (l.filter (·.kind = .bool))).map (·.name)).Nodup := (names_bitSetRows (Nat.le_refl _)).nodup hbools
  have hapart : ∀ a ∈ l.filter (·.kind ≠ .bool), ∀ b ∈ bitSetRows (bitSetCount (l.filter (·.kind = .bool)).length)
      start (l.filter (·.kind = .bool)), a.kind ≠ b.kind := by
    intro a ha b hb
    rw [(bitSetRows_spec hb).1]
    exact noWord a (List.mem_of_mem_filter ha)
  intro a ha b hb hkind hname
  rcases List.mem_append.mp ha with ha | ha <;> rcases List.mem_append.mp hb with hb | hb
  · exact List.inj_on_of_nodup_map names (List.mem_of_mem_filter ha) (List.mem_of_mem_filter hb) hname
  · exact absurd hkind (hapart a ha b hb)
  · exact absurd hkind.symm (hapart b hb a ha)
  · exact List.inj_on_of_nodup_map hwords ha hb hname

theorem Distinct.bare (h : Distinct l) : Distinct (l.map Row.bare) := by
  intro x hx y hy hkind hname
  obtain ⟨a, ha, rfl⟩ := List.mem_map.mp hx
  obtain ⟨b, hb, rfl⟩ := List.mem_map.mp hy
  simp only [Row.bare_kind, Row.bare_name] at hkind hname
  rw [h a ha b hb hkind hname]

/-! ### Solved models -/

@[simp] theorem bare_foldedRow (m : Model) (r : Row) : (m.foldedRow r).bare = r.bare := by
  rw [← Row.bare_face, foldedRow_face, Row.bare_face]

/-- There is one pass at least. -/
theorem solve_passes_pos {passes : Nat} (h : m.solve = .ok (m', passes)) : 0 < passes := by
  have hcounts : ∀ limit n (m : Model) result, sortUntilStable limit m n = .ok result → n ≤ result.2 := by
    intro limit
    induction limit with
    | zero =>
      intro n m result h
      cases h
      exact Nat.le_refl n
    | succ limit ih =>
      intro n m result h
      unfold sortUntilStable at h
      obtain ⟨⟨m₂, moved⟩, -, h⟩ := bind_eq_ok.mp h
      cases moved with
      | true => exact Nat.le_of_succ_le (ih _ _ _ h)
      | false =>
        obtain rfl := pure_eq_ok.mp h
        exact Nat.le_succ n
  unfold solve sortUntilStable at h
  obtain ⟨m₁, -, h⟩ := bind_eq_ok.mp h
  obtain ⟨⟨m₂, moved⟩, -, h⟩ := bind_eq_ok.mp h
  cases moved with
  | true => exact hcounts _ _ _ _ h
  | false =>
    cases pure_eq_ok.mp h
    exact Nat.zero_lt_one

/-- The fields of an object in a solved model are sorted. -/
theorem Solved.fields_pairwise {passes i : Nat} {place : Nat → Nat} {o : Row} (solved : m.Solved m' passes place)
    (whole : m.Whole top) (ordered : m.Ordered) (object : m.IsObject i o) (sorts : 0 < passes) :
    (m'.fields (m.foldedRow o)).Pairwise Row.Before := by
  obtain ⟨n, rfl⟩ := Nat.exists_eq_add_one.mpr sorts
  obtain ⟨start, hfields⟩ := solve_fields solved whole ordered object
  have hsorted := sorted_pairwise (sorted^[n] ((foldedFields start (m.fields o)).map Row.face))
  rw [← Function.iterate_succ_apply' sorted, ← hfields, List.pairwise_map] at hsorted
  exact hsorted.imp fun hbefore => by rwa [Row.Before, Row.order_face] at hbefore

theorem Solved.fields_bare {passes : Nat} (solved : m.Solved m' passes place) (whole : m.Whole top)
    (ordered : m.Ordered) (object : m.IsObject i o) : ∃ start, (m'.fields (m.foldedRow o)).map Row.bare =
      sorted^[passes] ((foldedFields start (m.fields o)).map Row.bare) := by
  have hbare : ∀ l : List Row, (l.map Row.face).map Row.bare = l.map Row.bare := fun l => by
    rw [List.map_map]
    exact List.map_congr_left fun r _ => Row.bare_face r
  have hsorted : Function.Semiconj (List.map Row.bare) sorted sorted := fun l => (sorted_map Row.order_bare l).symm
  obtain ⟨start, hfields⟩ := solve_fields solved whole ordered object
  refine ⟨start, ?_⟩
  rw [← hbare, hfields, (hsorted.iterate_right passes).eq, hbare]

/-- Objects with the same fields, the booleans among them in the same order, have the same fields in the same
order when their models have been solved. -/
theorem solvedFields_eq (solved : m.Solved m₁ (n + 1) place) (whole : m.Whole top) (ordered : m.Ordered)
    (object : m.IsObject i o) (solved' : m'.Solved m₁' (k + 1) place') (whole' : m'.Whole top')
    (ordered' : m'.Ordered) (object' : m'.IsObject j o')
    (perm : ((m.fields o).map Row.bare).Perm ((m'.fields o').map Row.bare))
    (bools : ((m.fields o).filter (·.kind = .bool)).map Row.bare =
      ((m'.fields o').filter (·.kind = .bool)).map Row.bare)
    (names : ((m.fields o).map (·.name)).Nodup) (noWord : ∀ r ∈ m.fields o, r.kind ≠ .bitSet) :
    (m₁.fields (m.foldedRow o)).map Row.bare = (m₁'.fields (m'.foldedRow o')).map Row.bare := by
  obtain ⟨start, hfields⟩ := solved.fields_bare whole ordered object
  obtain ⟨start', hfields'⟩ := solved'.fields_bare whole' ordered' object'
  rw [hfields, hfields']
  exact iterate_sorted_eq (foldedFields_perm perm bools start start')
    (foldedFields_distinct names noWord start).bare n k

end Model

end ObjectPack
