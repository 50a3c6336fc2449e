import Mathlib.Data.List.Perm.Subperm
import ObjectPack.Proofs.Model.Table

/-!
# Rearranging the rows of an object

Solving the layout moves rows inside the range of one object at a time, and puts words of booleans in
the place of booleans (`Model.Rearranges`).  The rows of a model still form a forest afterwards, and
whatever belonged to a data unit belongs to it (`Rearranges.wellFormed`, `Rearranges.complete`): a row
carries its range with it when it moves.
-/

namespace ObjectPack.Model

open Outcome

/-- Whether one model is another one with the rows of an object rearranged: the fields of the object in
row `i` have become some rows that are kept, some words and some rest that belongs to nothing, and
copies have been added at the end. -/
structure Rearranges (m m' : Model) (i : Nat) (owner : Row)
    (before fields behind kept words rest copies : List Row) : Prop where
  row : m.row i = .ok owner
  kind : owner.kind = .object
  start : owner.start = some before.length
  count : owner.count = fields.length
  rows : m.rows.toList = before ++ fields ++ behind
  rows' : m'.rows.toList = (before ++ (kept ++ words ++ rest) ++ behind ++ copies).modify i
    ({ · with count := (kept ++ words).length })
  length : (kept ++ words ++ rest).length = fields.length
  keeps : kept.Subperm fields
  loses : ∀ r ∈ fields, r.kind ≠ .bool → r ∈ kept
  apart : words.Pairwise Row.Apart
  fits : ∀ w ∈ words, w.kind = .bitSet ∧ w.Fits
  owns : ∀ w ∈ words, ∀ j, w.Owns j → m.size ≤ j ∧ j < m.size + copies.length
  spare : ∀ b ∈ rest ++ copies, b.kind = .bool ∧ b.Fits
  texts : m'.texts = m.texts
  supply : m'.supply = m.supply

namespace Rearranges

variable {m m' : Model} {top i j : Nat} {owner row : Row}
  {before fields behind kept words rest copies : List Row}

/-- The owner after its rows have been rearranged. -/
abbrev shrunk (owner : Row) (kept words : List Row) : Row :=
  { owner with count := (kept ++ words).length }

theorem owns_shrunk (h : Rearranges m m' i owner before fields behind kept words rest copies) (j : Nat) :
    (shrunk owner kept words).Owns j ↔
      before.length ≤ j ∧ j < before.length + (kept ++ words).length := by
  have hkind := h.kind
  have hstart := h.start
  constructor
  · rintro ⟨start, hstart', hle, hlt⟩
    rw [show (shrunk owner kept words).start = owner.start from rfl, hstart] at hstart'
    cases hstart'
    rw [Row.ownedCount, show (shrunk owner kept words).kind = owner.kind from rfl, hkind] at hlt
    exact ⟨hle, hlt⟩
  · rintro ⟨hle, hlt⟩
    refine ⟨before.length, hstart, hle, ?_⟩
    rw [Row.ownedCount, show (shrunk owner kept words).kind = owner.kind from rfl, hkind]
    exact hlt

theorem owns_iff (h : Rearranges m m' i owner before fields behind kept words rest copies) (j : Nat) :
    owner.Owns j ↔ before.length ≤ j ∧ j < before.length + fields.length := by
  have hkind := h.kind
  have hcount := h.count
  constructor
  · rintro ⟨start, hstart', hle, hlt⟩
    rw [h.start] at hstart'
    cases hstart'
    rw [Row.ownedCount, hkind, hcount] at hlt
    exact ⟨hle, hlt⟩
  · rintro ⟨hle, hlt⟩
    refine ⟨before.length, h.start, hle, ?_⟩
    rw [Row.ownedCount, hkind, hcount]
    exact hlt

theorem size_eq (h : Rearranges m m' i owner before fields behind kept words rest copies) :
    m'.size = m.size + copies.length := by
  have hrows := congrArg List.length h.rows
  have hrows' := congrArg List.length h.rows'
  have hlength := h.length
  rw [List.length_modify] at hrows'
  simp only [List.length_append, Array.length_toList] at hrows hrows' hlength
  show m'.rows.size = m.rows.size + _
  omega

/-- Where the row of an index comes from. -/
inductive Origin (m : Model) (i : Nat) (owner : Row) (kept words : List Row) (j : Nat) (r : Row) : Prop
  | same (outside : ¬ owner.Owns j) (other : j ≠ i) (hrow : m.row j = .ok r)
  | owner (self : j = i) (hrow : r = shrunk owner kept words)
  | kept (k : Nat) (inside : (shrunk owner kept words).Owns j) (hrow : m.row k = .ok r)
      (former : owner.Owns k)
  | word (inside : owner.Owns j) (mem : r ∈ words)
  | spare (kind : r.kind = .bool) (fits : r.Fits)

/-- Outside of the part that is replaced nothing has changed. -/
theorem getElem?_replaced {a b b' c d : List Row} (length : b'.length = b.length) {j : Nat}
    (outside : j < a.length ∨ a.length + b.length ≤ j) (inside : j < (a ++ b ++ c).length) :
    (a ++ b' ++ c ++ d)[j]? = (a ++ b ++ c)[j]? := by
  rw [List.length_append, List.length_append] at inside
  have hlength : (a ++ b).length = (a ++ b').length := by
    rw [List.length_append, List.length_append, length]
  rw [List.getElem?_append_left (by
    rw [List.length_append, List.length_append]
    omega)]
  rcases outside with hlow | hhigh
  · rw [List.append_assoc, List.append_assoc, List.getElem?_append_left hlow,
      List.getElem?_append_left hlow]
  · rw [List.getElem?_append_right (by rw [List.length_append]; omega),
      List.getElem?_append_right (by rw [List.length_append]; omega), hlength]

theorem row_of_ne (h : Rearranges m m' i owner before fields behind kept words rest copies)
    (hne : j ≠ i) : m'.row j = .ok row ↔
      (before ++ (kept ++ words ++ rest) ++ behind ++ copies)[j]? = some row := by
  rw [row_eq_ok, h.rows', List.getElem?_modify_ne _ _ hne.symm]

/-- Rows outside of the range stay where they are. -/
theorem row_outside (h : Rearranges m m' i owner before fields behind kept words rest copies)
    (outside : ¬ owner.Owns j) (hne : j ≠ i) (inside : j < m.size) :
    m'.row j = .ok row ↔ m.row j = .ok row := by
  rw [h.owns_iff] at outside
  have hlt : j < (before ++ fields ++ behind).length := by
    rw [← h.rows, Array.length_toList]
    exact inside
  rw [h.row_of_ne hne, getElem?_replaced h.length (by omega) hlt, ← h.rows, row_eq_ok]

/-- The object itself is not among the rows that are replaced. -/
theorem getElem?_owner (h : Rearranges m m' i owner before fields behind kept words rest copies)
    (wellFormed : m.WellFormed top) :
    (before ++ (kept ++ words ++ rest) ++ behind ++ copies)[i]? = some owner := by
  have hself : ¬ owner.Owns i := wellFormed.notItself i owner h.row (by rw [h.kind]; decide)
  rw [h.owns_iff] at hself
  have hlt : i < (before ++ fields ++ behind).length := by
    rw [← h.rows, Array.length_toList]
    exact lt_size_of_row h.row
  rw [getElem?_replaced h.length (by omega) hlt, ← h.rows, row_eq_ok.mp h.row]

theorem row_owner (h : Rearranges m m' i owner before fields behind kept words rest copies)
    (wellFormed : m.WellFormed top) : m'.row i = .ok (shrunk owner kept words) := by
  rw [row_eq_ok, h.rows', List.getElem?_modify_eq, h.getElem?_owner wellFormed]
  rfl

theorem getElem?_range (h : Rearranges m m' i owner before fields behind kept words rest copies)
    {k : Nat} (hk : k < fields.length) :
    (before ++ (kept ++ words ++ rest) ++ behind ++ copies)[before.length + k]?
      = (kept ++ words ++ rest)[k]? := by
  have hlength := h.length
  rw [List.append_assoc, List.append_assoc, List.getElem?_append_right (Nat.le_add_right _ _),
    Nat.add_sub_cancel_left, List.getElem?_append_left (by omega)]

theorem row_field (h : Rearranges m m' i owner before fields behind kept words rest copies) {k : Nat}
    (hk : k < fields.length) : m.row (before.length + k) = .ok fields[k] := by
  rw [row_eq_ok, h.rows, List.append_assoc, List.getElem?_append_right (Nat.le_add_right _ _),
    Nat.add_sub_cancel_left, List.getElem?_append_left hk, List.getElem?_eq_getElem hk]

/-- Where the rows come from. -/
theorem origin (h : Rearranges m m' i owner before fields behind kept words rest copies)
    (wellFormed : m.WellFormed top) (hrow : m'.row j = .ok row) :
    Origin m i owner kept words j row := by
  -- The table afterwards: what was before, the object itself, its range, what was behind, the copies.
  by_cases hself : j = i
  · subst hself
    rw [h.row_owner wellFormed] at hrow
    exact .owner rfl (Except.ok.inj hrow).symm
  by_cases howns : owner.Owns j
  · have hrange := (h.owns_iff j).mp howns
    obtain ⟨k, rfl⟩ := Nat.exists_eq_add_of_le hrange.1
    rw [h.row_of_ne hself, h.getElem?_range (by omega)] at hrow
    by_cases hkept : k < kept.length
    · rw [List.append_assoc, List.getElem?_append_left hkept] at hrow
      obtain ⟨k', hk', hfield⟩ := List.getElem_of_mem (h.keeps.subset (List.mem_of_getElem? hrow))
      refine .kept (before.length + k') ?_ (hfield ▸ h.row_field hk') ((h.owns_iff _).mpr (by omega))
      rw [h.owns_shrunk, List.length_append]
      omega
    · rw [List.append_assoc, List.getElem?_append_right (by omega)] at hrow
      rcases List.mem_append.mp (List.mem_of_getElem? hrow) with hword | hrest
      · exact .word howns hword
      · obtain ⟨hkind, hfits⟩ := h.spare row (List.mem_append_left _ hrest)
        exact .spare hkind hfits
  · by_cases hold : j < m.size
    · exact .same howns hself ((h.row_outside howns hself hold).mp hrow)
    · rw [h.row_of_ne hself] at hrow
      have hlength := h.length
      have hsize := congrArg List.length h.rows
      rw [Array.length_toList] at hsize
      have hsize' : m.size = (before ++ fields ++ behind).length := hsize
      simp only [List.length_append] at hsize' hlength
      rw [List.getElem?_append_right (by simp only [List.length_append]; omega)] at hrow
      obtain ⟨hkind, hfits⟩ :=
        h.spare row (List.mem_append_right _ (List.mem_of_getElem? hrow))
      exact .spare hkind hfits

/-- Fields that are no booleans are still among the rows of the object. -/
theorem exists_row (h : Rearranges m m' i owner before fields behind kept words rest copies)
    (wellFormed : m.WellFormed top) (owns : owner.Owns j) (hrow : m.row j = .ok row)
    (kind : row.kind ≠ .bool) : ∃ k, (shrunk owner kept words).Owns k ∧ m'.row k = .ok row := by
  have hrange := (h.owns_iff j).mp owns
  obtain ⟨k, rfl⟩ := Nat.exists_eq_add_of_le hrange.1
  have hk : k < fields.length := by omega
  rw [h.row_field hk] at hrow
  obtain ⟨k', hk', hkept⟩ := List.getElem_of_mem
    (h.loses row (Except.ok.inj hrow ▸ List.getElem_mem hk) kind)
  have hlength := h.length
  simp only [List.length_append] at hlength
  have howns : owner.Owns (before.length + k') := (h.owns_iff _).mpr (by omega)
  have hne : before.length + k' ≠ i := fun heq =>
    wellFormed.notItself i owner h.row (by rw [h.kind]; decide) (heq ▸ howns)
  refine ⟨before.length + k', ?_, ?_⟩
  · rw [h.owns_shrunk, List.length_append]
    omega
  · rw [h.row_of_ne hne, h.getElem?_range (by omega), List.append_assoc,
      List.getElem?_append_left hk', List.getElem?_eq_getElem hk', hkept]

/-! ### The forest -/

theorem owns_of_shrunk (h : Rearranges m m' i owner before fields behind kept words rest copies) (j : Nat)
    (owns : (shrunk owner kept words).Owns j) : owner.Owns j := by
  have hlength := h.length
  rw [List.length_append] at hlength
  rw [h.owns_shrunk] at owns
  rw [h.owns_iff]
  omega

theorem not_owns_of_spare {r : Row} (h : r.kind = .bool) (j : Nat) : ¬ r.Owns j :=
  Row.not_owns_of_ownedCount (by rw [Row.ownedCount, h]) j

/-- What a row that is there already owns is there already. -/
theorem lt_size_of_owns (h : Rearranges m m' i owner before fields behind kept words rest copies)
    (wellFormed : m.WellFormed top) {r : Row} (hr : r ∈ before ++ kept ++ behind)
    (owns : r.Owns j) : j < m.size := by
  have hmem : r ∈ m.rows.toList := by
    rw [h.rows]
    simp only [List.mem_append] at hr ⊢
    exact hr.imp_left fun hr => hr.imp_right fun hr => h.keeps.subset hr
  obtain ⟨k, hk⟩ := List.mem_iff_getElem?.mp hmem
  exact wellFormed.inside k r (row_eq_ok.mpr hk) j owns

/-- Different rows own different rows still. -/
theorem pairwise_apart (h : Rearranges m m' i owner before fields behind kept words rest copies)
    (wellFormed : m.WellFormed top) : m'.rows.toList.Pairwise Row.Apart := by
  -- Kept rows owned different rows before; words own new rows, and spare rows own none.
  have hold : (before ++ kept ++ behind).Pairwise Row.Apart := by
    obtain ⟨l, hperm, hsub⟩ := h.keeps
    have hapart := wellFormed.apart
    rw [h.rows] at hapart
    have hsublist := ((List.Sublist.refl before).append hsub).append (List.Sublist.refl behind)
    exact (hapart.sublist hsublist).perm ((hperm.append_left before).append_right behind)
      Row.Apart.symm
  have hspare : ∀ r, ∀ s ∈ rest ++ copies, Row.Apart r s := fun r s hs =>
    Row.apart_of_not_owns (not_owns_of_spare (h.spare s hs).1)
  have hnew : (words ++ (rest ++ copies)).Pairwise Row.Apart := by
    refine List.pairwise_append.mpr ⟨h.apart, ?_, fun r _ => hspare r⟩
    exact List.pairwise_of_forall_mem_list fun r _ s hs => hspare r s hs
  have hshape : (before ++ (kept ++ words ++ rest) ++ behind ++ copies).Pairwise Row.Apart := by
    have hall : ((before ++ kept ++ behind) ++ (words ++ (rest ++ copies))).Pairwise Row.Apart := by
      refine List.pairwise_append.mpr ⟨hold, hnew, fun r hr s hs => ?_⟩
      rcases List.mem_append.mp hs with hword | hs
      · refine Or.inr fun j howns howns' => ?_
        have hlow := h.lt_size_of_owns wellFormed hr howns
        have hhigh := (h.owns s hword j howns').1
        omega
      · exact hspare r s hs
    refine hall.perm ?_ Row.Apart.symm
    have hswap : (behind ++ (words ++ rest)).Perm (words ++ rest ++ behind) := List.perm_append_comm
    have hfront := (hswap.append_right copies).append_left (before ++ kept)
    simpa only [List.append_assoc] using hfront
  rw [h.rows', List.pairwise_iff_getElem]
  intro a b ha hb hab
  rw [List.length_modify] at ha hb
  have hpair := List.pairwise_iff_getElem.mp hshape a b ha hb hab
  have howner := h.getElem?_owner wellFormed
  rw [List.getElem_modify, List.getElem_modify]
  -- Giving the owner its new count lets it own fewer rows, so it stays apart from others.
  by_cases hfirst : i = a
  · subst hfirst
    rw [List.getElem?_eq_getElem ha] at howner
    rw [if_pos rfl, if_neg (by omega), Option.some.inj howner]
    rw [Option.some.inj howner] at hpair
    exact hpair.mono rfl h.owns_of_shrunk
  · rw [if_neg hfirst]
    by_cases hsecond : i = b
    · subst hsecond
      rw [List.getElem?_eq_getElem hb] at howner
      rw [if_pos rfl, Option.some.inj howner]
      rw [Option.some.inj howner] at hpair
      have hmono : (shrunk owner kept words).Apart _ := hpair.symm.mono rfl h.owns_of_shrunk
      exact hmono.symm
    · rw [if_neg hsecond]
      exact hpair

/-- No other row owns a row of the object, and the object owns no root of a data unit. -/
theorem not_owns_root (h : Rearranges m m' i owner before fields behind kept words rest copies)
    (wellFormed : m.WellFormed top) {k root : Nat} {r : Row} (hrow : m.row k = .ok r)
    (kind : r.kind = .dataUnit) (start : r.start = some root) : ¬ owner.Owns root := by
  intro howns
  obtain ⟨hcount, -⟩ := wellFormed.roots k r root hrow kind start
  have hroot : r.Owns root := by
    refine ⟨root, start, Nat.le_refl _, ?_⟩
    rw [Row.ownedCount, kind, hcount]
    exact Nat.lt_succ_self _
  have hsame := wellFormed.eq_of_owns h.row hrow howns hroot (by rw [h.kind]; decide)
  subst hsame
  have hrow' := h.row
  rw [hrow] at hrow'
  have hkind := h.kind
  rw [← Except.ok.inj hrow', kind] at hkind
  cases hkind

theorem hasObject (h : Rearranges m m' i owner before fields behind kept words rest copies)
    (wellFormed : m.WellFormed top) (object : m.HasObject j) (outside : ¬ owner.Owns j) :
    m'.HasObject j := by
  obtain ⟨r, hrow, hkind, hvalue⟩ := object
  by_cases hself : j = i
  · subst hself
    rw [h.row] at hrow
    cases hrow
    exact ⟨_, h.row_owner wellFormed, hkind, hvalue⟩
  · exact ⟨r, (h.row_outside outside hself (lt_size_of_row hrow)).mpr hrow, hkind, hvalue⟩

/-- Rows of data units are rows that have been there. -/
theorem exists_unit (h : Rearranges m m' i owner before fields behind kept words rest copies)
    (wellFormed : m.WellFormed top) (hrow : m'.row j = .ok row) (kind : row.kind = .dataUnit) :
    ∃ k, m.row k = .ok row := by
  cases h.origin wellFormed hrow with
  | same _ _ hrow => exact ⟨j, hrow⟩
  | owner _ hrow =>
    rw [hrow, show (shrunk owner kept words).kind = owner.kind from rfl, h.kind] at kind
    cases kind
  | kept k _ hrow _ => exact ⟨k, hrow⟩
  | word _ hmem =>
    rw [(h.fits row hmem).1] at kind
    cases kind
  | spare hkind _ =>
    rw [hkind] at kind
    cases kind

theorem fits_row (h : Rearranges m m' i owner before fields behind kept words rest copies)
    (wellFormed : m.WellFormed top) (hrow : m'.row j = .ok row) : row.Fits := by
  cases h.origin wellFormed hrow with
  | same _ _ hrow => exact wellFormed.fits j row hrow
  | owner _ hrow =>
    rw [hrow]
    exact wellFormed.fits i owner h.row
  | kept k _ hrow _ => exact wellFormed.fits k row hrow
  | word _ hmem => exact (h.fits row hmem).2
  | spare _ hfits => exact hfits

/-- The rows form a forest still. -/
theorem wellFormed (h : Rearranges m m' i owner before fields behind kept words rest copies)
    (before' : m.WellFormed top) : m'.WellFormed top := by
  have hsize := h.size_eq
  have hobject : owner.kind ≠ .dataUnit := by
    rw [h.kind]
    decide
  refine
    { bounded := Nat.lt_of_lt_of_le before'.bounded (hsize ▸ Nat.le_add_right _ _)
      fits := fun j r hrow => h.fits_row before' hrow
      texts := by
        rw [TextsKnown, h.texts, h.supply]
        exact before'.texts
      inside := ?_
      apart := h.pairwise_apart before'
      notItself := ?_
      notTop := ?_
      roots := ?_
      shared := ?_ }
  · intro j r hrow k howns
    rw [hsize]
    cases h.origin before' hrow with
    | same _ _ hrow => exact Nat.lt_add_right _ (before'.inside j r hrow k howns)
    | owner _ hrow =>
      rw [hrow] at howns
      exact Nat.lt_add_right _ (before'.inside i owner h.row k (h.owns_of_shrunk k howns))
    | kept j' _ hrow _ => exact Nat.lt_add_right _ (before'.inside j' r hrow k howns)
    | word _ hmem => exact (h.owns r hmem k howns).2
    | spare hkind _ => exact absurd howns (not_owns_of_spare hkind k)
  · intro j r hrow hkind howns
    cases h.origin before' hrow with
    | same _ _ hrow => exact before'.notItself j r hrow hkind howns
    | owner hself hrow =>
      subst hself
      rw [hrow] at howns
      exact before'.notItself j owner h.row hobject (h.owns_of_shrunk j howns)
    | kept k hinside hrow former =>
      -- The row stands in the range of the object, so nothing else owns it.
      have hsame := before'.eq_of_owns h.row hrow (h.owns_of_shrunk j hinside) howns hobject
      exact before'.notItself i owner h.row hobject (hsame ▸ former)
    | word hinside hmem =>
      have hlow := (h.owns r hmem j howns).1
      have hhigh := before'.inside i owner h.row j hinside
      omega
    | spare hkind _ => exact not_owns_of_spare hkind j howns
  · intro j r hrow hkind howns
    cases h.origin before' hrow with
    | same _ _ hrow => exact before'.notTop j r hrow hkind howns
    | owner _ hrow =>
      rw [hrow] at howns
      exact before'.notTop i owner h.row hobject (h.owns_of_shrunk top howns)
    | kept k _ hrow _ => exact before'.notTop k r hrow hkind howns
    | word _ hmem =>
      have hlow := (h.owns r hmem top howns).1
      have hhigh := before'.bounded
      omega
    | spare hkind _ => exact not_owns_of_spare hkind top howns
  · intro j r root hrow hkind hstart
    obtain ⟨k, hrow'⟩ := h.exists_unit before' hrow hkind
    obtain ⟨hcount, hroot⟩ := before'.roots k r root hrow' hkind hstart
    exact ⟨hcount, h.hasObject before' hroot (h.not_owns_root before' hrow' hkind hstart)⟩
  · intro s root root' hunit hunit'
    have hformer : ∀ {root}, m'.HasUnit s root → m.HasUnit s root := by
      rintro root ⟨j, r, hrow, hvalue, hstart⟩
      obtain ⟨k, hk⟩ := h.exists_unit before' hrow ((h.fits_row before' hrow).kind_of_dataUnit hvalue)
      exact ⟨k, r, hk, hvalue, hstart⟩
    exact before'.shared s root root' (hformer hunit) (hformer hunit')

/-! ### What belongs to a data unit -/

/-- Whatever belonged to the data unit still does, and so does the object if one of its rows did. -/
theorem reaches (h : Rearranges m m' i owner before fields behind kept words rest copies)
    (wellFormed : m.WellFormed top) (reached : m.Reaches top j) :
    (¬ owner.Owns j → m'.Reaches top j) ∧
      (owner.Owns j → m'.Reaches top i ∧ owner.value = .present) := by
  have hobject : owner.kind ≠ .dataUnit := by
    rw [h.kind]
    decide
  have hself : ¬ owner.Owns i := wellFormed.notItself i owner h.row hobject
  -- A row that belonged to the data unit has a place where it belongs to it now.
  have hmoved : ∀ k r, m.row k = .ok r → r.kind ≠ .bool →
      ((¬ owner.Owns k → m'.Reaches top k) ∧
        (owner.Owns k → m'.Reaches top i ∧ owner.value = .present)) →
      ∃ k' r', m'.Reaches top k' ∧ m'.row k' = .ok r' ∧ r'.value = r.value ∧ r'.start = r.start ∧
        (k ≠ i → r' = r) := by
    intro k r hrow hkind ⟨houtside, hinside⟩
    by_cases howns : owner.Owns k
    · obtain ⟨howner, hpresent⟩ := hinside howns
      obtain ⟨k', hk', hrow'⟩ := h.exists_row wellFormed howns hrow hkind
      exact ⟨k', r, .owned howner (h.row_owner wellFormed) hpresent hk', hrow', rfl, rfl, fun _ => rfl⟩
    · by_cases hki : k = i
      · subst hki
        rw [h.row] at hrow
        cases hrow
        exact ⟨k, _, houtside hself, h.row_owner wellFormed, rfl, rfl, fun hne => absurd rfl hne⟩
      · exact ⟨k, r, houtside howns,
          (h.row_outside howns hki (lt_size_of_row hrow)).mpr hrow, rfl, rfl, fun _ => rfl⟩
  induction reached with
  | top =>
    exact ⟨fun _ => .top, fun howns => absurd howns (wellFormed.notTop i owner h.row hobject)⟩
  | @owned k j r _ hrow present owns ih =>
    by_cases howns : owner.Owns j
    · obtain rfl := wellFormed.eq_of_owns h.row hrow howns owns hobject
      rw [h.row] at hrow
      cases hrow
      exact ⟨fun hnot => absurd howns hnot, fun _ => ⟨ih.1 hself, present⟩⟩
    · have hki : k ≠ i := by
        rintro rfl
        rw [h.row] at hrow
        cases hrow
        exact howns owns
      have hkind : r.kind ≠ .bool := fun hbool => not_owns_of_spare hbool j owns
      obtain ⟨k', r', hreached, hrow', -, -, hsame⟩ := hmoved k r hrow hkind ih
      obtain rfl := hsame hki
      exact ⟨fun _ => .owned hreached hrow' present owns, fun hin => absurd hin howns⟩
  | @root k root r s _ hrow value start ih =>
    have hkind := (wellFormed.fits k r hrow).kind_of_dataUnit value
    have hnot := h.not_owns_root wellFormed hrow hkind start
    obtain ⟨k', r', hreached, hrow', hvalue', hstart', -⟩ :=
      hmoved k r hrow (by rw [hkind]; decide) ih
    exact ⟨fun _ => .root hreached hrow' (hvalue'.trans value) (hstart'.trans start),
      fun hin => absurd hin hnot⟩

/-- Whatever object belonged to the data unit still does. -/
theorem complete (h : Rearranges m m' i owner before fields behind kept words rest copies)
    (wellFormed : m.WellFormed top) (before' : m.Complete top) : m'.Complete top := by
  have hobject : owner.kind ≠ .dataUnit := by
    rw [h.kind]
    decide
  have hself : ¬ owner.Owns i := wellFormed.notItself i owner h.row hobject
  rintro j ⟨r, hrow, hkind, hvalue⟩
  cases h.origin wellFormed hrow with
  | same outside _ hrow =>
    exact (h.reaches wellFormed (before' j ⟨r, hrow, hkind, hvalue⟩)).1 outside
  | owner self hrow =>
    subst self
    rw [hrow] at hvalue
    exact (h.reaches wellFormed (before' j ⟨owner, h.row, h.kind, hvalue⟩)).1 hself
  | kept k inside hrow former =>
    obtain ⟨hreached, hpresent⟩ :=
      (h.reaches wellFormed (before' k ⟨r, hrow, hkind, hvalue⟩)).2 former
    exact .owned hreached (h.row_owner wellFormed) hpresent inside
  | word _ hmem =>
    rw [(h.fits r hmem).1] at hkind
    cases hkind
  | spare hbool _ =>
    rw [hbool] at hkind
    cases hkind

end Rearranges

end ObjectPack.Model
