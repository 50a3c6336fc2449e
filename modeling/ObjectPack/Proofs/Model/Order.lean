import ObjectPack.Proofs.Model.Rearrange

/-!
# The order of owners

A row stands before what it owns, and what its own rows own stands behind all of them (`Model.Ordered`).
So whatever is done to the rows of an object moves no row that stands before them, and a loop over the
table that rearranges the objects it comes to meets every object once.  Rearranging keeps this order
(`Model.Rearranges.ordered`).
-/

namespace ObjectPack.Model

variable {m m' : Model} {top i j : Nat} {owner row : Row}
  {before fields behind kept words rest copies : List Row}

namespace Rearranges

/-- The kind of an object is not that of a data unit. -/
theorem kind_ne (h : Rearranges m m' i owner before fields behind kept words rest copies) :
    owner.kind ≠ .dataUnit := by
  rw [h.kind]
  decide

/-- A row of the object comes from a row of the object, or it owns rows that have been added. -/
theorem owns_inside (h : Rearranges m m' i owner before fields behind kept words rest copies)
    (wellFormed : m.WellFormed top) (ordered : m.Ordered) (hrow : m'.row j = .ok row)
    (inside : owner.Owns j) (kind : row.kind ≠ .dataUnit) {l : Nat} (owns : row.Owns l) {k : Nat}
    (hk : owner.Owns k) : k < l := by
  cases h.origin wellFormed hrow with
  | same outside _ _ => exact absurd inside outside
  | owner self _ => exact absurd inside (self ▸ wellFormed.notItself i owner h.row h.kind_ne)
  | kept k' _ hrow former => exact ordered.nested i owner k' row k l h.row h.kind_ne former hk hrow kind owns
  | word _ mem =>
    have hlow := (h.owns row mem l owns).1
    have hhigh := wellFormed.inside i owner h.row k hk
    omega
  | spare hkind _ => exact absurd owns (not_owns_of_spare hkind l)

/-- A row outside of the object owns what it has owned. -/
theorem owns_outside (h : Rearranges m m' i owner before fields behind kept words rest copies)
    (wellFormed : m.WellFormed top) (hrow : m'.row j = .ok row) (outside : ¬ owner.Owns j) :
    (∃ r, m.row j = .ok r ∧ r.kind = row.kind ∧ ∀ k, row.Owns k → r.Owns k) ∨ row.kind = .bool := by
  cases h.origin wellFormed hrow with
  | same _ _ hrow => exact Or.inl ⟨row, hrow, rfl, fun _ => id⟩
  | owner self hrow =>
    subst self
    subst hrow
    exact Or.inl ⟨owner, h.row, rfl, h.owns_of_shrunk⟩
  | kept _ inside _ _ => exact absurd (h.owns_of_shrunk j inside) outside
  | word inside _ => exact absurd inside outside
  | spare hkind _ => exact Or.inr hkind

/-- Rearranging keeps the order of owners. -/
theorem ordered (h : Rearranges m m' i owner before fields behind kept words rest copies)
    (wellFormed : m.WellFormed top) (before' : m.Ordered) : m'.Ordered where
  inside j r k hrow _ howns := (h.wellFormed wellFormed).inside j r hrow k howns
  below j r k hrow hkind howns := by
    by_cases hinside : owner.Owns j
    · exact h.owns_inside wellFormed before' hrow hinside hkind howns hinside
    · rcases h.owns_outside wellFormed hrow hinside with ⟨s, hs, hsame, hless⟩ | hbool
      · exact before'.below j s k hs (hsame ▸ hkind) (hless k howns)
      · exact absurd howns (not_owns_of_spare hbool k)
  nested j o k r k' l hrow hkind howns howns' hr hrkind hl := by
    -- Does the object that has been rearranged own `k`? If so, `k` and its parts stand in its range.
    by_cases hinside : owner.Owns k
    · -- The owner of `k` is the object itself.
      cases h.origin wellFormed hrow with
      | same outside hne hrow =>
        exact absurd (wellFormed.eq_of_owns hrow h.row howns hinside hkind) hne
      | owner _ hself =>
        subst hself
        exact h.owns_inside wellFormed before' hr hinside hrkind hl (h.owns_of_shrunk k' howns')
      | kept j' hin hrow former =>
        have hself := wellFormed.eq_of_owns hrow h.row howns hinside hkind
        exact absurd (hself ▸ former) (wellFormed.notItself i owner h.row h.kind_ne)
      | word _ mem =>
        have hlow := (h.owns o mem k howns).1
        have hhigh := wellFormed.inside i owner h.row k hinside
        omega
      | spare hbool _ => exact absurd howns (not_owns_of_spare hbool k)
    · rcases h.owns_outside wellFormed hr hinside with ⟨s, hs, hsame, hless⟩ | hbool
      · have hold := lt_size_of_row hs
        cases h.origin wellFormed hrow with
        | same _ _ hrow => exact before'.nested j o k s k' l hrow hkind howns howns' hs (hsame ▸ hrkind) (hless l hl)
        | owner _ hself =>
          subst hself
          exact absurd (h.owns_of_shrunk k howns) hinside
        | kept j' _ hrow _ =>
          exact before'.nested j' o k s k' l hrow hkind howns howns' hs (hsame ▸ hrkind) (hless l hl)
        | word _ mem =>
          have hlow := (h.owns o mem k howns).1
          omega
        | spare hbool _ => exact absurd howns (not_owns_of_spare hbool k)
      · exact absurd hl (not_owns_of_spare hbool l)

end Rearranges

end ObjectPack.Model
