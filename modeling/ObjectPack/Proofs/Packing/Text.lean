import ObjectPack.Proofs.Draft.Write
import ObjectPack.Proofs.Sorting
import ObjectPack.TextPool

/-!
# Packed texts

The block of texts of a data unit holds every text that the unit uses, with a zero byte behind it and
its mark in front of it (`TextPool.fillBlock_marked`).
-/

namespace ObjectPack

open Outcome

/-- Whether a text stands, marked, in a data unit of a draft. -/
def Draft.MarksText (d : Draft) (unit : Nat) (t : PooledText) : Prop :=
  ∃ block ∈ d.blocks, ∃ body ∈ block.body, body.unit = unit ∧ ∃ mark ∈ body.marks,
    mark.reference = t.reference ∧ d.HoldsAt body mark.offset (t.bytes ++ [0])

theorem Draft.MarksText.mono {d d' : Draft} {unit : Nat} {t : PooledText} (h : d.MarksText unit t)
    (valid : d.Valid) (extends' : d.Extends d') : d'.MarksText unit t := by
  obtain ⟨block, hblock, body, hbody, hunit, mark, hmark, hreference, hholds⟩ := h
  have hinside := (valid.bodies block hblock body hbody).inside
  obtain ⟨index, hindex⟩ := List.mem_iff_getElem?.mp hblock
  obtain ⟨block', body', hblock', -, hbody', hgrows⟩ :=
    extends'.blocks index block body hindex hbody
  exact ⟨block', List.mem_of_getElem? hblock', body', hbody', hgrows.unit.trans hunit, mark,
    hgrows.marks.subset hmark, hreference, hholds.extends hgrows extends'.buffer hinside⟩

namespace TextPool

variable {pool : TextPool} {d d' : Draft} {index : Nat} {reference : Reference} {body : Body}

theorem keys_indices {indices : List Nat} {keys : List (Nat × Nat)}
    (h : List.Forall₂ (fun index key => (do
      let t ← pool.entry index
      return (t.checksum.toNat, index)) = Except.ok key) indices keys) :
    keys.map (·.2) = indices := by
  induction h with
  | nil => rfl
  | cons hkey _ ih =>
    simp only [bind_eq_ok, pure_eq_ok] at hkey
    obtain ⟨t, -, rfl⟩ := hkey
    rw [List.map_cons, ih]

/-- The order of writing leaves no text out. -/
theorem mem_writingOrder {indices order : List Nat} (h : pool.writingOrder indices = .ok order)
    (i : Nat) : i ∈ order ↔ i ∈ indices := by
  unfold writingOrder at h
  split at h
  · cases h
    rfl
  · cases h
    rfl
  · simp only [bind_eq_ok, pure_eq_ok] at h
    obtain ⟨keys, hkeys, rfl⟩ := h
    rw [Sorting.mem_dropRepeats, ((Sorting.sortBy_perm _ keys).map _).mem_iff]
    rw [keys_indices (mapM_eq_ok hkeys)]

/-- A text is written behind its mark. -/
theorem writeEntry_wrote (valid : d.Valid) (opened : d.OpenAt index reference body)
    (known : ∀ t ∈ pool.entries, t.reference.id < d.supply.next) {i : Nat}
    (h : pool.writeEntry d i = .ok d') : ∃ t body', pool.entry i = .ok t ∧
      Draft.Wrote index reference d body d' body' ∧ ∃ mark ∈ body'.marks,
        mark.reference = t.reference ∧ d'.HoldsAt body' mark.offset (t.bytes ++ [0]) := by
  unfold writeEntry at h
  simp only [bind_eq_ok] at h
  obtain ⟨t, hentry, d₁, hmark, d₂, hbytes, hzero⟩ := h
  have hmem : t ∈ pool.entries := List.mem_of_getElem? (indexed_eq_ok.mp hentry)
  obtain ⟨body₁, hfirst, hsize₁, hset⟩ := Draft.mark_wrote opened (known t hmem) hmark
  have hvalid₁ := valid.moves hfirst.moves
  obtain ⟨body₂, hsecond, hsize₂, hholds₂⟩ := Draft.append_wrote hvalid₁ hfirst.opened hbytes
  obtain ⟨body₃, hthird, -, hholds₃⟩ :=
    Draft.write_wrote (hvalid₁.moves hsecond.moves) hsecond.opened hzero
  have hbyte : (Scalar.u8 0).encode d₂.endian = [0] := by
    cases d₂.endian <;> decide
  rw [hbyte, hsize₂] at hholds₃
  refine ⟨t, body₃, hentry, (hfirst.trans hsecond).trans hthird, ⟨t.reference, body.size⟩,
    (hsecond.trans hthird).grows.marks.subset hset, rfl, ?_⟩
  rw [← hsize₁]
  exact hsecond.append hthird hvalid₁ hholds₂ hholds₃

/-- Writing some texts leaves each of them behind. -/
theorem writeEntries_wrote {order : List Nat} (valid : d.Valid)
    (opened : d.OpenAt index reference body)
    (known : ∀ t ∈ pool.entries, t.reference.id < d.supply.next)
    (h : order.foldlM pool.writeEntry d = .ok d') : ∃ body',
      Draft.Wrote index reference d body d' body' ∧ ∀ i ∈ order, ∃ t, pool.entry i = .ok t ∧
        ∃ mark ∈ body'.marks, mark.reference = t.reference ∧
          d'.HoldsAt body' mark.offset (t.bytes ++ [0]) := by
  induction order generalizing d body with
  | nil =>
    cases h
    exact ⟨body, .refl opened, fun i hi => absurd hi List.not_mem_nil⟩
  | cons i order ih =>
    rw [List.foldlM_cons, bind_eq_ok] at h
    obtain ⟨d₁, hfirst, hrest⟩ := h
    obtain ⟨t, body₁, hentry, hwrote, mark, hmark, hreference, hholds⟩ :=
      writeEntry_wrote valid opened known hfirst
    have hvalid₁ := valid.moves hwrote.moves
    obtain ⟨body₂, hwrote', htexts⟩ := ih hvalid₁ hwrote.opened
      (fun t ht => Nat.lt_of_lt_of_le (known t ht) hwrote.moves.supply_le) hrest
    refine ⟨body₂, hwrote.trans hwrote', fun j hj => ?_⟩
    rcases List.mem_cons.mp hj with rfl | hj
    · exact ⟨t, hentry, mark, hwrote'.grows.marks.subset hmark, hreference,
        hholds.wrote hvalid₁ hwrote.opened hwrote'⟩
    · exact htexts j hj

/-- The block of texts holds all of them, marked. -/
theorem fillBlock_marked {block : Reference} {indices : List Nat} {unit : Nat} (valid : d.Valid)
    (current : d.currentUnit = some unit)
    (known : ∀ t ∈ pool.entries, t.reference.id < d.supply.next)
    (h : pool.fillBlock d block indices = .ok d') : d.Continues d' ∧
      ∀ i ∈ indices, ∃ t, pool.entry i = .ok t ∧ d'.MarksText unit t := by
  unfold fillBlock at h
  simp only [bind_eq_ok] at h
  obtain ⟨order, horder, d₁, hopen, d₂, htexts, hclose⟩ := h
  obtain ⟨hopened, index, body, hopenAt, -, hunit⟩ := Draft.openBlock_opened hopen
  have hvalid₁ := valid.moves hopened.moves
  obtain ⟨body₂, hwrote, hmarked⟩ := writeEntries_wrote hvalid₁ hopenAt
    (fun t ht => Nat.lt_of_lt_of_le (known t ht) hopened.moves.supply_le) htexts
  have hvalid₂ := hvalid₁.moves hwrote.moves
  have hclosed := Draft.closeBlock_closed hclose
  refine ⟨(hopened.trans (hwrote.continues hvalid₁ hopenAt)).trans hclosed, fun i hi => ?_⟩
  obtain ⟨t, hentry, mark, hmark, hreference, hholds⟩ :=
    hmarked i ((mem_writingOrder horder i).mpr hi)
  obtain ⟨opened, hactive, -⟩ := hwrote.opened
  obtain ⟨-, hfound, hbody⟩ := Draft.active?_eq_some.mp hactive
  rw [current] at hunit
  have hmarks : d₂.MarksText unit t := ⟨opened, List.mem_of_getElem? hfound, body₂, hbody,
    hwrote.grows.unit.trans (Option.some.inj hunit).symm, mark, hmark, hreference, hholds⟩
  exact ⟨t, hentry, hmarks.mono hvalid₂ hclosed.moves.extends⟩

end TextPool

end ObjectPack
