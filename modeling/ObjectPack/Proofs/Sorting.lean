import Mathlib.Data.List.Forall2
import Mathlib.Data.List.Nodup
import ObjectPack.Sorting

/-!
# Sorting pairs and related lists

A text that is used twice is written once: where pairs are sorted, equal second parts stand next to each other
(`Sorting.nodup_dropRepeats`).  Lists whose elements are related are sorted alike, and lose the same
repetitions, if the relation is one that what is compared respects.  There is one stable sort only
(`Sorting.eq_mergeSort`).
-/

namespace ObjectPack.Sorting

variable {α β : Type} {R : α → β → Prop}

theorem lexLe_iff {a b : Nat × Nat} : lexLe a b = true ↔ a.1 < b.1 ∨ a.1 = b.1 ∧ a.2 ≤ b.2 := by
  simp [lexLe]

theorem pairwise_sortBy_lexLe (l : List (Nat × Nat)) : (sortBy lexLe l).Pairwise fun a b => lexLe a b = true := by
  refine sortBy_pairwise (fun a b => ?_) (fun a b c hab hbc => ?_) l
  · rw [lexLe_iff, lexLe_iff]
    omega
  · rw [lexLe_iff] at hab hbc ⊢
    omega

theorem mem_dropRepeats [DecidableEq α] {x : α} (l : List α) : x ∈ dropRepeats l ↔ x ∈ l := by
  fun_induction dropRepeats l with
  | case1 => rfl
  | case2 => rfl
  | case3 a rest ih =>
    rw [ih]
    simp only [List.mem_cons, or_self_left]
  | case4 a b rest hne ih => rw [List.mem_cons, ih, ← List.mem_cons]

theorem dropRepeats_sublist [DecidableEq α] (l : List α) : (dropRepeats l).Sublist l := by
  fun_induction dropRepeats l with
  | case1 => exact .slnil
  | case2 x => exact .refl [x]
  | case3 a rest ih => exact ih.cons a
  | case4 a b rest hne ih => exact ih.cons_cons a

/-- Where pairs are sorted, second parts that are equal stand next to each other, so none is left twice. -/
theorem nodup_dropRepeats {l : List (Nat × Nat)} (sorted : l.Pairwise fun a b => lexLe a b = true)
    (determined : ∀ a ∈ l, ∀ b ∈ l, a.2 = b.2 → a.1 = b.1) : (dropRepeats (l.map (·.2))).Nodup := by
  induction l with
  | nil => exact List.nodup_nil
  | cons a rest ih =>
    obtain ⟨hfirst, hrest⟩ := List.pairwise_cons.mp sorted
    have hnodup := ih hrest fun b hb c hc =>
      determined b (List.mem_cons_of_mem _ hb) c (List.mem_cons_of_mem _ hc)
    cases rest with
    | nil => exact List.nodup_singleton a.2
    | cons b rest =>
      rw [List.map_cons, List.map_cons, dropRepeats]
      split
      · exact hnodup
      · rename_i hne
        refine List.nodup_cons.mpr ⟨fun hmem => hne ?_, hnodup⟩
        rw [mem_dropRepeats, ← List.map_cons] at hmem
        obtain ⟨c, hc, heq⟩ := List.mem_map.mp hmem
        have hkey := determined c (List.mem_cons_of_mem _ hc) a List.mem_cons_self heq
        -- Whatever stands between two equal pairs is equal to them.
        have hab := lexLe_iff.mp (hfirst b List.mem_cons_self)
        have hbc : lexLe b c = true := by
          rcases List.mem_cons.mp hc with rfl | hc
          · exact lexLe_iff.mpr (Or.inr ⟨rfl, Nat.le_refl _⟩)
          · exact (List.pairwise_cons.mp hrest).1 c hc
        have hbc := lexLe_iff.mp hbc
        omega

/-! ### Related lists -/

theorem insertBy_related {le : α → α → Bool} {le' : β → β → Bool} {a : α} {b : β} {l : List α} {l' : List β}
    (same : ∀ a a' b b', R a a' → R b b' → le a b = le' a' b') (h : R a b) (related : List.Forall₂ R l l') :
    List.Forall₂ R (insertBy le a l) (insertBy le' b l') := by
  induction related with
  | nil => exact .cons h .nil
  | cons h' hrest ih =>
    unfold insertBy
    rw [same _ _ _ _ h h']
    split
    · exact .cons h (.cons h' hrest)
    · exact .cons h' ih

/-- Lists are sorted alike if they are related by what the orders do not see. -/
theorem sortBy_related {le : α → α → Bool} {le' : β → β → Bool} {l : List α} {l' : List β}
    (same : ∀ a a' b b', R a a' → R b b' → le a b = le' a' b') (related : List.Forall₂ R l l') :
    List.Forall₂ R (sortBy le l) (sortBy le' l') := by
  induction related with
  | nil => exact .nil
  | cons h _ ih => exact insertBy_related same h ih

/-- Lists lose the same repetitions if what is related to equals is equal. -/
theorem dropRepeats_related [DecidableEq α] [DecidableEq β] {l : List α} {l' : List β}
    (same : ∀ a a' b b', R a a' → R b b' → (a = b ↔ a' = b')) (related : List.Forall₂ R l l') :
    List.Forall₂ R (dropRepeats l) (dropRepeats l') := by
  induction related with
  | nil => exact .nil
  | cons h hrest ih =>
    cases hrest with
    | nil => exact .cons h .nil
    | cons h' _ =>
      rw [dropRepeats, dropRepeats, ite_cond_congr (propext (same _ _ _ _ h h'))]
      split
      · exact ih
      · exact .cons h ih

/-! ### Stable sorts -/

/-- Sorted lists with the same elements are equal if elements that may stand on either side of each other are in
the same order in both. -/
theorem eq_of_stable {le : α → α → Bool} {l l' : List α} (perm : l.Perm l')
    (sorted : l.Pairwise fun a b => le a b) (sorted' : l'.Pairwise fun a b => le a b)
    (refl : ∀ a, le a a) (same : ∀ a, l.filter (fun b => le a b && le b a) = l'.filter (fun b => le a b && le b a)) :
    l = l' := by
  induction l generalizing l' with
  | nil => exact perm.nil_eq
  | cons a rest ih =>
    cases l' with
    | nil => exact perm.eq_nil
    | cons b rest' =>
      obtain ⟨hfirst, hrest⟩ := List.pairwise_cons.mp sorted
      obtain ⟨hfirst', hrest'⟩ := List.pairwise_cons.mp sorted'
      -- Each of the first elements does not come after the other one.
      have hab : le a b = true := by
        rcases List.mem_cons.mp (perm.mem_iff.mpr List.mem_cons_self) with rfl | hb
        · exact refl _
        · exact hfirst b hb
      have hba : le b a = true := by
        rcases List.mem_cons.mp (perm.mem_iff.mp List.mem_cons_self) with rfl | ha
        · exact refl _
        · exact hfirst' a ha
      have hheads := same a
      rw [List.filter_cons_of_pos (by simp [refl]), List.filter_cons_of_pos (by simp [hab, hba])] at hheads
      obtain rfl := (List.cons.inj hheads).1
      rw [ih perm.cons_inv hrest hrest' fun c => ?_]
      have hsame := same c
      rw [List.filter_cons, List.filter_cons] at hsame
      split at hsame
      · exact (List.cons.inj hsame).2
      · exact hsame

/-- What sorts a list and keeps the order of elements that may stand on either side of each other is the stable
sort. -/
theorem eq_mergeSort {le : α → α → Bool} (total : ∀ a b, le a b ∨ le b a)
    (trans : ∀ a b c, le a b → le b c → le a c) {l l' : List α} (perm : l'.Perm l)
    (sorted : l'.Pairwise fun a b => le a b)
    (same : ∀ a, l'.filter (fun b => le a b && le b a) = l.filter (fun b => le a b && le b a)) :
    l' = l.mergeSort le := by
  have htotal : ∀ a b, (le a b || le b a) = true := fun a b => by
    rw [Bool.or_eq_true]
    exact total a b
  have hsorted := List.pairwise_mergeSort trans htotal l
  have hperm := List.mergeSort_perm l le
  refine eq_of_stable (perm.trans hperm.symm) sorted hsorted (fun a => (total a a).elim id id) fun a => ?_
  rw [same]
  -- Elements that are tied are in order, so sorting leaves them as they are.
  have hties : (l.filter fun b => le a b && le b a).Pairwise fun b c => le b c := by
    refine List.pairwise_of_forall_mem_list fun b hb c hc => ?_
    simp only [List.mem_filter, Bool.and_eq_true] at hb hc
    exact trans b a c hb.2.2 hc.2.1
  have hsub := (List.sublist_mergeSort trans htotal hties List.filter_sublist).filter (fun b => le a b && le b a)
  rw [List.filter_filter] at hsub
  simp only [Bool.and_self] at hsub
  exact hsub.eq_of_length (hperm.filter _).length_eq.symm

end ObjectPack.Sorting
