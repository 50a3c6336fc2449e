import ObjectPack.Proofs.Align
import ObjectPack.Proofs.Outcome
import ObjectPack.Proofs.Patch
import ObjectPack.Proofs.Section.Coherent

/-!
# Placing sections

Sections are placed one after another, each at the next multiple of its alignment.  `Laid` says this
of a list of placements as a recursion along the list; `place_laid` shows it of what `Placement.place`
gives, and the lemmas about `Laid` give what the rest needs: every section is at a multiple of its
alignment (`Laid.dvd`), between the first position and the last (`Laid.le_start`, `Laid.stop_le`), and
behind all that come before it (`Laid.apart`).

Filling sets the contents at these places, keeps what was there before and leaves zeros elsewhere
(`fill_hasAt`, `getElem?_fill`, `getElem?_fill_zero`).
-/

namespace ObjectPack.Placement

open Outcome

/-- Where the content of a placed section ends. -/
def stop (p : Placement) : Nat := p.start + p.placed.content.length

/-- Whether placements stand one after another, each aligned, from a position on up to another. -/
def Laid : Nat → List Placement → Nat → Prop
  | position, [], last => position = last
  | position, p :: rest, last =>
    position ≤ p.start ∧ p.start < position + p.placed.alignment ∧ p.placed.alignment ∣ p.start ∧
      Laid p.stop rest last

/-- Whether two placed sections have no byte in common. -/
def Apart (p q : Placement) : Prop := p.stop ≤ q.start ∨ q.stop ≤ p.start

instance : Std.Symm Apart := ⟨fun _ _ h => h.symm⟩

variable {position last : Nat} {placements : List Placement}

theorem place_laid {unit : Nat} {sections : List Section}
    (wellFormed : ∀ s ∈ sections, s.WellFormed)
    (h : place unit position sections = .ok (placements, last)) :
    placements.map (·.placed) = sections ∧ Laid position placements last ∧ last < wordLimit := by
  induction sections generalizing position placements with
  | nil =>
    unfold place at h
    split at h
    · rename_i hlt
      cases h
      exact ⟨rfl, rfl, hlt⟩
    · cases h
  | cons s rest ih =>
    simp only [place, refuse_if_eq_ok, bind_eq_ok, lift_eq_ok, pure_eq_ok, Prod.exists,
      Prod.mk.injEq] at h
    obtain ⟨-, start, hstart, placed, stop', hrest, rfl, rfl⟩ := h
    obtain ⟨hplaced, hlaid, hlast⟩ := ih (fun t ht => wellFormed t (List.mem_cons_of_mem _ ht)) hrest
    obtain ⟨hdvd, hle, hlt⟩ := alignUp_spec (wellFormed s List.mem_cons_self).power hstart
    refine ⟨?_, ⟨hle, hlt, hdvd, hlaid⟩, hlast⟩
    rw [List.map_cons, hplaced]

theorem Laid.le (h : Laid position placements last) : position ≤ last := by
  induction placements generalizing position with
  | nil => exact Nat.le_of_eq h
  | cons p rest ih =>
    have hrest := ih h.2.2.2
    have hstart := h.1
    unfold stop at hrest
    omega

theorem Laid.dvd (h : Laid position placements last) :
    ∀ p ∈ placements, p.placed.alignment ∣ p.start := by
  induction placements generalizing position with
  | nil =>
    intro p hp
    cases hp
  | cons q rest ih =>
    intro p hp
    rcases List.mem_cons.mp hp with rfl | hp
    · exact h.2.2.1
    · exact ih h.2.2.2 p hp

theorem Laid.le_start (h : Laid position placements last) : ∀ p ∈ placements, position ≤ p.start := by
  induction placements generalizing position with
  | nil =>
    intro p hp
    cases hp
  | cons q rest ih =>
    intro p hp
    rcases List.mem_cons.mp hp with rfl | hp
    · exact h.1
    · have hrest := ih h.2.2.2 p hp
      have hstart := h.1
      unfold stop at hrest
      omega

theorem Laid.stop_le (h : Laid position placements last) : ∀ p ∈ placements, p.stop ≤ last := by
  induction placements generalizing position with
  | nil =>
    intro p hp
    cases hp
  | cons q rest ih =>
    intro p hp
    rcases List.mem_cons.mp hp with rfl | hp
    · exact h.2.2.2.le
    · exact ih h.2.2.2 p hp

/-- Each section stands behind those before it. -/
theorem Laid.apart (h : Laid position placements last) :
    placements.Pairwise fun p q => p.stop ≤ q.start := by
  induction placements generalizing position with
  | nil => exact List.Pairwise.nil
  | cons p rest ih => exact List.pairwise_cons.mpr ⟨h.2.2.2.le_start, ih h.2.2.2⟩

/-- Of two sections one stands behind the other. -/
theorem Laid.eq_or_apart (h : Laid position placements last) {p q : Placement}
    (hp : p ∈ placements) (hq : q ∈ placements) : p = q ∨ Apart p q := by
  by_cases heq : p = q
  · exact Or.inl heq
  · have hall : placements.Pairwise Apart := h.apart.imp Or.inl
    exact Or.inr (hall.forall hp hq heq)

/-! ### Filling -/

/-- Filling keeps what is there. -/
theorem getElem?_fill (placements : List Placement) (b : Bytes) {i : Nat} (hi : i < b.length) :
    (fill placements b)[i]? = b[i]? := by
  induction placements generalizing b with
  | nil => rfl
  | cons p rest ih =>
    have hpad : i < (b.padTo p.start).length := by
      rw [Bytes.length_padTo]
      omega
    rw [fill, List.foldl_cons]
    refine (ih (b.padTo p.start ++ p.placed.content) ?_).trans ?_
    · rw [List.length_append]
      omega
    · rw [List.getElem?_append_left hpad, Bytes.getElem?_padTo hi]

/-- Zeros are filled in up to where the first section stands. -/
theorem Laid.length_pad {q : Placement} {rest : List Placement} (h : Laid position (q :: rest) last)
    {b : Bytes} (hb : b.length = position) : (b.padTo q.start).length = q.start := by
  have hstart := h.1
  rw [Bytes.length_padTo]
  omega

theorem Laid.length_stop {q : Placement} {rest : List Placement} (h : Laid position (q :: rest) last)
    {b : Bytes} (hb : b.length = position) :
    (b.padTo q.start ++ q.placed.content).length = q.stop := by
  rw [List.length_append, h.length_pad hb, stop]

theorem length_fill (h : Laid position placements last) {b : Bytes} (hb : b.length = position) :
    (fill placements b).length = last := by
  induction placements generalizing position b with
  | nil => exact hb.trans h
  | cons p rest ih =>
    rw [fill, List.foldl_cons]
    exact ih h.2.2.2 (h.length_stop hb)

/-- Filling puts every content at its place. -/
theorem fill_hasAt (h : Laid position placements last) {b : Bytes} (hb : b.length = position)
    {p : Placement} (hp : p ∈ placements) :
    (fill placements b).HasAt p.start p.placed.content := by
  induction placements generalizing position b with
  | nil => cases hp
  | cons q rest ih =>
    have hpad := h.length_pad hb
    have hnext := h.length_stop hb
    rw [fill, List.foldl_cons]
    rcases List.mem_cons.mp hp with rfl | hp
    · intro i hi
      refine (getElem?_fill rest _ ?_).trans ?_
      · rw [hnext, stop]
        omega
      · rw [List.getElem?_append_right (by omega), hpad, Nat.add_sub_cancel_left]
    · exact ih h.2.2.2 hnext hp

/-- Behind what was there before, only the contents are filled in. -/
theorem getElem?_fill_zero (h : Laid position placements last) {b : Bytes}
    (hb : b.length = position) {i : Nat} (low : position ≤ i) (high : i < last)
    (between : ∀ p ∈ placements, i < p.start ∨ p.stop ≤ i) : (fill placements b)[i]? = some 0 := by
  induction placements generalizing position b with
  | nil =>
    have hlast : position = last := h
    omega
  | cons q rest ih =>
    have hpad := h.length_pad hb
    have hnext := h.length_stop hb
    rw [fill, List.foldl_cons]
    by_cases hbehind : q.stop ≤ i
    · exact ih h.2.2.2 hnext hbehind fun p hp => between p (List.mem_cons_of_mem _ hp)
    · have hbefore := (between q List.mem_cons_self).resolve_right hbehind
      refine (getElem?_fill rest _ (by omega)).trans ?_
      rw [List.getElem?_append_left (by omega), Bytes.getElem?_padTo_zero (by omega) hbefore]

end ObjectPack.Placement
