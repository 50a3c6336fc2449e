import Mathlib.Data.List.Forall2
import ObjectPack.Model
import ObjectPack.Proofs.Outcome

/-!
# The table of a model

A model is a table of rows, and its rows form a forest: a row owns a range of rows, no row owns itself,
and the ranges of two rows have no row in common (`Model.WellFormed`).  The one exception are data
units, which own the row of their root object and share it with other data units of their signature.
Which rows the packed form of a data unit has to hold is a matter of ranges as well (`Model.Reaches`).
-/

namespace ObjectPack

open Outcome

theorem modify_last {α : Type} (l : List α) (a : α) (f : α → α) :
    (l ++ [a]).modify l.length f = l ++ [f a] := by
  induction l with
  | nil => rfl
  | cons b l ih =>
    show b :: (l ++ [a]).modify l.length f = _
    rw [ih]
    rfl

namespace Model

variable {start count : Nat}

/-- A range ends at an index. -/
theorem spanFrom_eq_ok {span : Span} :
    spanFrom start count = .ok span ↔ start + count < indexLimit ∧ ⟨start, count⟩ = span :=
  accept_if_eq_ok

theorem spanFrom_of_lt (h : start + count < indexLimit) : spanFrom start count = .ok ⟨start, count⟩ :=
  spanFrom_eq_ok.mpr ⟨h, rfl⟩

end Model

namespace Row

/-- Whether the value of a row is one of its kind. -/
def Fits (r : Row) : Prop :=
  match r.value with
  | .present => r.kind.isReferenced = true
  | .null => r.kind = .string ∨ r.kind = .struct ∨ r.kind = .object ∨ r.kind = .dataUnit
  | .bool _ => r.kind = .bool
  | .bitSet _ => r.kind = .bitSet
  | .scalar s => r.kind = .ofFormat s.format
  | .enum _ _ => r.kind = .enum
  | .struct _ => r.kind = .struct
  | .dataUnit _ => r.kind = .dataUnit

theorem Fits.kind_of_dataUnit {r : Row} (h : r.Fits) {s : Digest} (value : r.value = .dataUnit s) :
    r.kind = .dataUnit := by
  rwa [Fits, value] at h

theorem Fits.kind_of_struct {r : Row} (h : r.Fits) {c : CustomStruct} (value : r.value = .struct c) :
    r.kind = .struct := by
  rwa [Fits, value] at h

/-- How many rows a row owns from its start on. -/
def ownedCount (r : Row) : Nat :=
  match r.kind with
  | .object | .array | .bitSet | .dataUnit => r.count
  | .dictionary => 2 * r.count
  | _ => 0

/-- How many rows a collection holds from its start on: an empty one holds one element of each sort. -/
def heldCount (r : Row) : Nat :=
  match r.kind with
  | .array => max r.count 1
  | .dictionary => 2 * max r.count 1
  | _ => 0

/-- Whether a collection holds the row of an index, be it one that is only declared. -/
def Holds (r : Row) (j : Nat) : Prop :=
  ∃ start, r.start = some start ∧ start ≤ j ∧ j < start + r.heldCount

/-- Whether a row owns the row of an index. -/
def Owns (r : Row) (j : Nat) : Prop :=
  ∃ start, r.start = some start ∧ start ≤ j ∧ j < start + r.ownedCount

/-- Whether two rows own no row together, unless both are data units. -/
def Apart (r s : Row) : Prop :=
  (r.kind = .dataUnit ∧ s.kind = .dataUnit) ∨ ∀ j, r.Owns j → ¬ s.Owns j

theorem Apart.symm {r s : Row} (h : r.Apart s) : s.Apart r :=
  h.imp And.symm fun hnone j hs hr => hnone j hr hs

/-- A row that owns less is apart from the same rows. -/
theorem Apart.mono {r r' s : Row} (h : r.Apart s) (kind : r'.kind = r.kind)
    (less : ∀ j, r'.Owns j → r.Owns j) : r'.Apart s :=
  h.imp (fun hkinds => ⟨kind.trans hkinds.1, hkinds.2⟩) fun hnone j hr => hnone j (less j hr)

theorem ownedCount_of_object {r : Row} (h : r.kind = .object) : r.ownedCount = r.count := by
  rw [ownedCount, h]

theorem not_holds_of_start {r : Row} (h : r.start = none) (j : Nat) : ¬ r.Holds j := by
  rintro ⟨start, hstart, -⟩
  rw [h] at hstart
  cases hstart

theorem not_holds_of_heldCount {r : Row} (h : r.heldCount = 0) (j : Nat) : ¬ r.Holds j := by
  rintro ⟨start, -, hle, hlt⟩
  omega

theorem not_owns_of_start {r : Row} (h : r.start = none) (j : Nat) : ¬ r.Owns j := by
  rintro ⟨start, hstart, -⟩
  rw [h] at hstart
  cases hstart

theorem not_owns_of_ownedCount {r : Row} (h : r.ownedCount = 0) (j : Nat) : ¬ r.Owns j := by
  rintro ⟨start, -, hle, hlt⟩
  omega

theorem apart_of_not_owns {r s : Row} (h : ∀ j, ¬ s.Owns j) : r.Apart s :=
  Or.inr fun j _ hs => h j hs

/-- The kinds of rows that own rows. -/
def owningKinds : List Kind := [.object, .array, .bitSet, .dataUnit, .dictionary]

/-- The range of a row that owns rows is as long as the row owns rows. -/
theorem members_of_start {r : Row} {start : Nat} (hstart : r.start = some start)
    (kind : r.kind ∈ owningKinds) : r.members = Model.spanFrom start r.ownedCount := by
  unfold members ownedCount
  rw [hstart]
  cases hkind : r.kind with
  | object | array | bitSet | dataUnit | dictionary => rfl
  | _ =>
    rw [hkind] at kind
    exact absurd kind (by decide)

/-- A row of another kind owns nothing. -/
theorem members_of_not_mem {r : Row} (kind : r.kind ∉ owningKinds) :
    r.members = .ok .empty ∧ r.ownedCount = 0 := by
  unfold members ownedCount
  cases hkind : r.kind with
  | object | array | bitSet | dataUnit | dictionary =>
    rw [hkind] at kind
    exact absurd (by decide) kind
  | _ => cases r.start <;> exact ⟨rfl, rfl⟩

/-- The range of a row is empty, or it begins at the start of the row. -/
theorem members_cases {r : Row} {span : Span} (h : r.members = .ok span) :
    (span = .empty ∧ ∀ j, ¬ r.Owns j) ∨ ∃ start, r.start = some start ∧
      start + r.ownedCount < Model.indexLimit ∧ span = ⟨start, r.ownedCount⟩ := by
  by_cases kind : r.kind ∈ owningKinds
  · cases hstart : r.start with
    | none =>
      rw [members, hstart] at h
      cases h
      exact Or.inl ⟨rfl, not_owns_of_start hstart⟩
    | some start =>
      rw [members_of_start hstart kind] at h
      obtain ⟨hend, rfl⟩ := Model.spanFrom_eq_ok.mp h
      exact Or.inr ⟨start, rfl, hend, rfl⟩
  · obtain ⟨hempty, hnone⟩ := members_of_not_mem kind
    rw [hempty] at h
    cases h
    exact Or.inl ⟨rfl, not_owns_of_ownedCount hnone⟩

/-- The range of a row holds what the row owns. -/
theorem owns_iff {r : Row} {span : Span} (h : r.members = .ok span) (j : Nat) :
    r.Owns j ↔ ∃ k < span.length, j = span.start + k := by
  obtain ⟨rfl, hnone⟩ | ⟨start, hstart, -, rfl⟩ := members_cases h
  · exact ⟨fun howns => absurd howns (hnone j), fun ⟨k, hk, _⟩ => by cases hk⟩
  · constructor
    · rintro ⟨start', hstart', hle, hlt⟩
      obtain rfl := Option.some.inj (hstart.symm.trans hstart')
      exact ⟨j - start, by show j - start < r.ownedCount; omega, by show j = start + (j - start); omega⟩
    · rintro ⟨k, hk, rfl⟩
      exact ⟨start, hstart, Nat.le_add_right start k, Nat.add_lt_add_left hk start⟩

end Row

namespace Model

variable {m m' : Model} {top i j : Nat} {row : Row}

theorem row_eq_ok : m.row i = .ok row ↔ m.rows.toList[i]? = some row := by
  rw [Model.row, indexed_eq_ok, Array.getElem?_toList]

theorem members_eq (hrow : m.row i = .ok row) : m.members i = row.members := by
  rw [Model.members, hrow]
  rfl

theorem requireStart_eq_ok (hrow : m.row i = .ok row) {start : Nat} :
    m.requireStart i = .ok start ↔ row.start = some start := by
  unfold requireStart
  simp only [hrow, bind_eq_ok, Except.ok.injEq, exists_eq_left']
  cases row.start with
  | none => simp
  | some s => rw [pure_eq_ok, Option.some.injEq]

theorem requireTypeName_eq_ok (hrow : m.row i = .ok row) {name : String} :
    m.requireTypeName i = .ok name ↔ row.typeName = some name := by
  unfold requireTypeName
  simp only [hrow, bind_eq_ok, Except.ok.injEq, exists_eq_left']
  cases row.typeName with
  | none => simp
  | some s => rw [pure_eq_ok, Option.some.injEq]

theorem lt_size_of_row (h : m.row i = .ok row) : i < m.size :=
  (List.getElem?_eq_some_iff.mp (row_eq_ok.mp h)).1

/-- Whether row `i` is that of an object that is there. -/
def HasObject (m : Model) (i : Nat) : Prop :=
  ∃ row, m.row i = .ok row ∧ row.kind = .object ∧ row.value = .present

/-- Whether row `root` is the root object of a data unit of a signature. -/
def HasUnit (m : Model) (s : Digest) (root : Nat) : Prop :=
  ∃ i row, m.row i = .ok row ∧ row.value = .dataUnit s ∧ row.start = some root

/-- Whether the texts of a model have references that have been taken. -/
def TextsKnown (m : Model) : Prop := ∀ t ∈ m.texts.entries, t.reference.id < m.supply.next

/-- Whether the rows of a model form a forest below a top row, with texts and data units that exist. -/
structure WellFormed (m : Model) (top : Nat) : Prop where
  bounded : top < m.size
  fits : ∀ i row, m.row i = .ok row → row.Fits
  texts : m.TextsKnown
  inside : ∀ i row, m.row i = .ok row → ∀ j, row.Owns j → j < m.size
  apart : m.rows.toList.Pairwise Row.Apart
  notItself : ∀ i row, m.row i = .ok row → row.kind ≠ .dataUnit → ¬ row.Owns i
  notTop : ∀ i row, m.row i = .ok row → row.kind ≠ .dataUnit → ¬ row.Owns top
  roots : ∀ i row root, m.row i = .ok row → row.kind = .dataUnit → row.start = some root →
    row.count = 1 ∧ m.HasObject root
  shared : ∀ s root root', m.HasUnit s root → m.HasUnit s root' → root = root'

/-- Whether rows stand before what they own, and behind them what their rows own. -/
structure Ordered (m : Model) : Prop where
  inside : ∀ i r j, m.row i = .ok r → r.kind ≠ .dataUnit → r.Owns j → j < m.size
  below : ∀ i r j, m.row i = .ok r → r.kind ≠ .dataUnit → r.Owns j → i < j
  nested : ∀ i o j r k l, m.row i = .ok o → o.kind ≠ .dataUnit → o.Owns j → o.Owns k →
    m.row j = .ok r → r.kind ≠ .dataUnit → r.Owns l → k < l

/-- Whether collections stand before what they hold, and no object owns it. -/
def Reserved (m : Model) : Prop :=
  ∀ i r j, m.row i = .ok r → r.Holds j → i < j ∧ j < m.size ∧
    ∀ k o, m.row k = .ok o → o.kind = .object → ¬ o.Owns j

theorem WellFormed.apart_of_ne (h : m.WellFormed top) {row row' : Row} (hi : m.row i = .ok row)
    (hj : m.row j = .ok row') (hne : i ≠ j) : row.Apart row' := by
  obtain ⟨hlt, hget⟩ := List.getElem?_eq_some_iff.mp (row_eq_ok.mp hi)
  obtain ⟨hlt', hget'⟩ := List.getElem?_eq_some_iff.mp (row_eq_ok.mp hj)
  rcases Nat.lt_or_gt_of_ne hne with hlow | hhigh
  · exact hget ▸ hget' ▸ List.pairwise_iff_getElem.mp h.apart i j hlt hlt' hlow
  · exact (hget ▸ hget' ▸ List.pairwise_iff_getElem.mp h.apart j i hlt' hlt hhigh).symm

/-- Different rows own different rows, unless both are data units. -/
theorem WellFormed.eq_of_owns (h : m.WellFormed top) {row row' : Row} {k : Nat}
    (hi : m.row i = .ok row) (hj : m.row j = .ok row') (owns : row.Owns k) (owns' : row'.Owns k)
    (kind : row.kind ≠ .dataUnit) : i = j := by
  by_contra hne
  rcases h.apart_of_ne hi hj hne with ⟨hkind, -⟩ | hnone
  · exact kind hkind
  · exact hnone k owns owns'

/-- Which rows belong to the data unit of a top row and to the data units that it refers to. -/
inductive Reaches (m : Model) (top : Nat) : Nat → Prop
  | top : Reaches m top top
  | owned {i j : Nat} {row : Row} (owner : Reaches m top i) (hrow : m.row i = .ok row)
      (present : row.value = .present) (owns : row.Owns j) : Reaches m top j
  | root {i root : Nat} {row : Row} {s : Digest} (unit : Reaches m top i)
      (hrow : m.row i = .ok row) (value : row.value = .dataUnit s) (start : row.start = some root) :
      Reaches m top root

/-- Whether all objects of a model belong to the data unit of a top row, or to one that it refers to. -/
def Complete (m : Model) (top : Nat) : Prop := ∀ i, m.HasObject i → m.Reaches top i

end Model

end ObjectPack
