/-!
# Stable sorting

Insertion into a sorted list, and the sort that inserts the elements one after another from the
right. An element goes in front of the first one it does not come after, so elements that compare
equal keep their order.
-/

namespace ObjectPack.Sorting

variable {α : Type}

/-- Puts `x` in front of the first element of the list that it is not greater than. -/
def insertBy (le : α → α → Bool) (x : α) : List α → List α
  | [] => [x]
  | y :: rest => if le x y then x :: y :: rest else y :: insertBy le x rest

/-- The stable sort by `le`. -/
def sortBy (le : α → α → Bool) : List α → List α
  | [] => []
  | x :: rest => insertBy le x (sortBy le rest)

theorem insertBy_perm (le : α → α → Bool) (x : α) (l : List α) :
    (insertBy le x l).Perm (x :: l) := by
  induction l with
  | nil => exact List.Perm.refl _
  | cons y rest ih =>
    unfold insertBy
    split
    · exact List.Perm.refl _
    · exact (ih.cons y).trans (List.Perm.swap x y rest)

theorem sortBy_perm (le : α → α → Bool) (l : List α) : (sortBy le l).Perm l := by
  induction l with
  | nil => exact List.Perm.refl _
  | cons x rest ih => exact (insertBy_perm le x _).trans (ih.cons x)

theorem insertBy_pairwise {le : α → α → Bool} (total : ∀ a b, le a b ∨ le b a)
    (trans : ∀ a b c, le a b → le b c → le a c) (x : α) {l : List α}
    (sorted : l.Pairwise fun a b => le a b) : (insertBy le x l).Pairwise fun a b => le a b := by
  induction l with
  | nil => exact List.pairwise_singleton _ _
  | cons y rest ih =>
    obtain ⟨hfirst, hrest⟩ := List.pairwise_cons.mp sorted
    unfold insertBy
    split
    · rename_i hle
      refine List.pairwise_cons.mpr ⟨fun z hz => ?_, sorted⟩
      rcases List.mem_cons.mp hz with rfl | hz
      · exact hle
      · exact trans x y z hle (hfirst z hz)
    · rename_i hnot
      refine List.pairwise_cons.mpr ⟨fun z hz => ?_, ih hrest⟩
      rcases List.mem_cons.mp ((insertBy_perm le x rest).mem_iff.mp hz) with rfl | hz
      · exact (total z y).resolve_left hnot
      · exact hfirst z hz

/-- Sorting by a total order sorts. -/
theorem sortBy_pairwise {le : α → α → Bool} (total : ∀ a b, le a b ∨ le b a)
    (trans : ∀ a b c, le a b → le b c → le a c) (l : List α) :
    (sortBy le l).Pairwise fun a b => le a b := by
  induction l with
  | nil => exact List.Pairwise.nil
  | cons x rest ih => exact insertBy_pairwise total trans x ih

theorem filter_insertBy {le : α → α → Bool} {p : α → Bool} (alike : ∀ a b, p a → p b → le a b) (x : α)
    (l : List α) : (insertBy le x l).filter p = (x :: l).filter p := by
  induction l with
  | nil => rfl
  | cons y rest ih =>
    unfold insertBy
    split
    · rfl
    · rename_i hnot
      -- An element goes behind another one only if they are not alike.
      have hdiffer : ¬ (p x = true ∧ p y = true) := fun h => hnot (alike x y h.1 h.2)
      rw [List.filter_cons, ih]
      simp only [List.filter_cons]
      split <;> split <;> first | rfl | exact absurd ⟨‹_›, ‹_›⟩ hdiffer

/-- Sorting keeps the order of elements that are alike. -/
theorem filter_sortBy {le : α → α → Bool} {p : α → Bool} (alike : ∀ a b, p a → p b → le a b)
    (l : List α) : (sortBy le l).filter p = l.filter p := by
  induction l with
  | nil => rfl
  | cons x rest ih =>
    show (insertBy le x (sortBy le rest)).filter p = _
    rw [filter_insertBy alike, List.filter_cons, List.filter_cons, ih]

/-- Whether a pair of numbers does not come after another in lexicographic order. -/
def lexLe (a b : Nat × Nat) : Bool := a.1 < b.1 || (a.1 == b.1 && a.2 ≤ b.2)

/-- The list without elements equal to their predecessor. -/
def dropRepeats [DecidableEq α] : List α → List α
  | [] => []
  | [x] => [x]
  | x :: y :: rest => if x = y then dropRepeats (y :: rest) else x :: dropRepeats (y :: rest)

end ObjectPack.Sorting
