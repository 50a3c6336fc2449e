import ObjectPack.Draft.Link

/-!
# Patching byte strings

A byte string has another one at a position when the bytes from there on are those of the other
(`Bytes.HasAt`); this is what a slice, a word or a slot that is read back comes down to.  Overwriting
a range changes that range and nothing else (`Bytes.getElem?_overwrite`), so slots that are apart from
each other can be patched in any order: afterwards each of them is there (`patchAll_hasAt`), and what
lies outside all of them is as before (`getElem?_patchAll`).

Two byte strings may differ in slots that are yet to be written (`Bytes.AgreeWhere`).  Once the slots
are patched they are the same (`Bytes.AgreeWhere.patchAll_eq`).
-/

namespace ObjectPack

namespace Bytes

variable {b s patch : Bytes} {start : Nat}

/-- Whether the bytes of `b` from `start` on begin with `s`. -/
def HasAt (b : Bytes) (start : Nat) (s : Bytes) : Prop := ∀ i < s.length, b[start + i]? = s[i]?

theorem HasAt.slice (h : b.HasAt start s) : (b.drop start).take s.length = s := by
  apply List.ext_getElem?
  intro i
  rw [List.getElem?_take]
  split
  · rename_i hi
    rw [List.getElem?_drop]
    exact h i hi
  · rename_i hi
    rw [List.getElem?_eq_none (Nat.not_lt.mp hi)]

theorem HasAt.slice? (h : b.HasAt start s) (inside : start + s.length ≤ b.length) :
    b.slice? start s.length = some s := by
  rw [Bytes.slice?, if_pos inside, h.slice]

theorem HasAt.le_length (h : b.HasAt start s) (hs : s ≠ []) : start + s.length ≤ b.length := by
  have hpos : 0 < s.length := List.length_pos_iff.mpr hs
  have hlast := h (s.length - 1) (by omega)
  rw [List.getElem?_eq_getElem (show s.length - 1 < s.length by omega)] at hlast
  have hlt := (List.getElem?_eq_some_iff.mp hlast).1
  omega

theorem hasAt_append (a s c : Bytes) : (a ++ (s ++ c)).HasAt a.length s := by
  intro i hi
  rw [List.getElem?_append_right (Nat.le_add_right _ _), Nat.add_sub_cancel_left,
    List.getElem?_append_left hi]

/-- What lies inside a part of a byte string lies inside the whole. -/
theorem HasAt.trans {t : Bytes} {offset : Nat} (h : b.HasAt start s) (ht : s.HasAt offset t)
    (inside : offset + t.length ≤ s.length) : b.HasAt (start + offset) t := by
  intro i hi
  rw [Nat.add_assoc, h (offset + i) (by omega)]
  exact ht i hi

/-- What stands in a byte string stands in one that begins with it. -/
theorem HasAt.of_grown {b' : Bytes} (h : b.HasAt start s) (grown : b <+: b') :
    b'.HasAt start s := by
  obtain ⟨rest, rfl⟩ := grown
  intro i hi
  have hat := h i hi
  rw [List.getElem?_eq_getElem hi] at hat
  rw [List.getElem?_append_left (List.getElem?_eq_some_iff.mp hat).1, hat,
    List.getElem?_eq_getElem hi]

theorem getElem?_overwrite (h : start + patch.length ≤ b.length) (i : Nat) :
    (b.overwrite start patch)[i]?
      = if start ≤ i ∧ i < start + patch.length then patch[i - start]? else b[i]? := by
  have htake : (b.take start).length = start := by
    rw [List.length_take]
    omega
  unfold overwrite
  by_cases hlow : i < start
  · rw [if_neg (by omega), List.getElem?_append_left (by omega), List.getElem?_take, if_pos hlow]
  · rw [List.getElem?_append_right (by omega), htake]
    by_cases hhigh : i < start + patch.length
    · rw [if_pos ⟨by omega, hhigh⟩, List.getElem?_append_left (by omega)]
    · rw [if_neg (by omega), List.getElem?_append_right (by omega), List.getElem?_drop]
      congr 1
      omega

theorem getElem?_padTo {length i : Nat} (h : i < b.length) : (b.padTo length)[i]? = b[i]? :=
  List.getElem?_append_left h

theorem getElem?_padTo_zero {length i : Nat} (low : b.length ≤ i) (high : i < length) :
    (b.padTo length)[i]? = some 0 := by
  rw [padTo, List.getElem?_append_right low, zeros, List.getElem?_replicate, if_pos (by omega)]

end Bytes

/-! ### Patching slots -/

/-- Whether the ranges of two slots have no byte in common. -/
def SlotsApart (x y : Nat × Bytes) : Prop := x.1 + x.2.length ≤ y.1 ∨ y.1 + y.2.length ≤ x.1

/-- Whether a position lies in none of some slots. -/
def OutsideSlots (slots : List (Nat × Bytes)) (i : Nat) : Prop :=
  ∀ slot ∈ slots, i < slot.1 ∨ slot.1 + slot.2.length ≤ i

variable {b : Bytes} {slots : List (Nat × Bytes)}

theorem length_patchAll (inside : ∀ slot ∈ slots, slot.1 + slot.2.length ≤ b.length) :
    (patchAll b slots).length = b.length := by
  induction slots generalizing b with
  | nil => rfl
  | cons slot rest ih =>
    have hslot := Bytes.length_overwrite (inside slot List.mem_cons_self)
    rw [patchAll, List.foldl_cons]
    refine (ih (b := b.overwrite slot.1 slot.2) fun other hother => ?_).trans hslot
    rw [hslot]
    exact inside other (List.mem_cons_of_mem _ hother)

theorem getElem?_patchAll (inside : ∀ slot ∈ slots, slot.1 + slot.2.length ≤ b.length) {i : Nat}
    (outside : OutsideSlots slots i) : (patchAll b slots)[i]? = b[i]? := by
  induction slots generalizing b with
  | nil => rfl
  | cons slot rest ih =>
    have hslot := inside slot List.mem_cons_self
    have hi := outside slot List.mem_cons_self
    have hstep : (b.overwrite slot.1 slot.2)[i]? = b[i]? := by
      rw [Bytes.getElem?_overwrite hslot, if_neg (by omega)]
    rw [patchAll, List.foldl_cons, ← hstep]
    refine ih (fun other hother => ?_) fun other hother =>
      outside other (List.mem_cons_of_mem _ hother)
    rw [Bytes.length_overwrite hslot]
    exact inside other (List.mem_cons_of_mem _ hother)

theorem patchAll_hasAt (inside : ∀ slot ∈ slots, slot.1 + slot.2.length ≤ b.length)
    (apart : ∀ x ∈ slots, ∀ y ∈ slots, x = y ∨ SlotsApart x y) {x : Nat × Bytes} (hx : x ∈ slots) :
    (patchAll b slots).HasAt x.1 x.2 := by
  induction slots generalizing b with
  | nil => cases hx
  | cons slot rest ih =>
    have hslot := inside slot List.mem_cons_self
    have hinside : ∀ other ∈ rest, other.1 + other.2.length ≤ (b.overwrite slot.1 slot.2).length := by
      intro other hother
      rw [Bytes.length_overwrite hslot]
      exact inside other (List.mem_cons_of_mem _ hother)
    rw [patchAll, List.foldl_cons]
    by_cases hrest : x ∈ rest
    · -- A slot that comes again is written again.
      exact ih hinside (fun y hy z hz => apart y (List.mem_cons_of_mem _ hy) z
        (List.mem_cons_of_mem _ hz)) hrest
    · rcases List.mem_cons.mp hx with rfl | hx
      · intro i hi
        have houtside : OutsideSlots rest (x.1 + i) := by
          intro other hother
          rcases apart x List.mem_cons_self other (List.mem_cons_of_mem _ hother) with rfl | h
          · exact absurd hother hrest
          · rcases h with h | h <;> omega
        have hpatch := getElem?_patchAll hinside houtside
        rw [patchAll] at hpatch
        rw [hpatch, Bytes.getElem?_overwrite hslot, if_pos ⟨Nat.le_add_right _ _, by omega⟩,
          Nat.add_sub_cancel_left]
      · exact absurd hx hrest

/-! ### Byte strings that agree -/

namespace Bytes

/-- Whether two byte strings are equally long and agree at some positions. -/
structure AgreeWhere (P : Nat → Prop) (b b' : Bytes) : Prop where
  length : b'.length = b.length
  bytes : ∀ i, P i → b'[i]? = b[i]?

variable {P Q : Nat → Prop} {b b' c c' : Bytes}

theorem AgreeWhere.refl (P : Nat → Prop) (b : Bytes) : AgreeWhere P b b := ⟨rfl, fun _ _ => rfl⟩

theorem AgreeWhere.mono (h : AgreeWhere P b b') (fewer : ∀ i, Q i → P i) : AgreeWhere Q b b' :=
  ⟨h.length, fun i hi => h.bytes i (fewer i hi)⟩

theorem AgreeWhere.eq (h : AgreeWhere P b b') (all : ∀ i, P i) : b' = b :=
  List.ext_getElem? fun i => h.bytes i (all i)

theorem AgreeWhere.append (h : AgreeWhere P b b') (hc : AgreeWhere (fun i => P (b.length + i)) c c') :
    AgreeWhere P (b ++ c) (b' ++ c') := by
  refine ⟨by rw [List.length_append, List.length_append, h.length, hc.length], fun i hi => ?_⟩
  by_cases hlt : i < b.length
  · rw [List.getElem?_append_left (h.length ▸ hlt), List.getElem?_append_left hlt, h.bytes i hi]
  · obtain ⟨j, rfl⟩ := Nat.exists_eq_add_of_le (Nat.not_lt.mp hlt)
    rw [List.getElem?_append_right (h.length ▸ Nat.le_add_right _ _),
      List.getElem?_append_right (Nat.le_add_right _ _), h.length, Nat.add_sub_cancel_left, hc.bytes j hi]

theorem AgreeWhere.padTo (h : AgreeWhere P b b') (length : Nat) :
    AgreeWhere P (b.padTo length) (b'.padTo length) := by
  unfold Bytes.padTo
  rw [h.length]
  exact h.append (.refl _ _)

/-- Byte strings that agree outside some slots are the same after the slots have been written. -/
theorem AgreeWhere.patchAll_eq {slots : List (Nat × Bytes)} (h : AgreeWhere (OutsideSlots slots) b b')
    (inside : ∀ slot ∈ slots, slot.1 + slot.2.length ≤ b.length) : patchAll b' slots = patchAll b slots := by
  induction slots generalizing b b' with
  | nil => exact h.eq fun i slot hslot => absurd hslot List.not_mem_nil
  | cons slot rest ih =>
    have hslot := inside slot List.mem_cons_self
    have hslot' : slot.1 + slot.2.length ≤ b'.length := h.length ▸ hslot
    refine ih ⟨?_, fun i hi => ?_⟩ fun other hother => ?_
    · rw [length_overwrite hslot', length_overwrite hslot, h.length]
    · rw [getElem?_overwrite hslot', getElem?_overwrite hslot]
      split
      · rfl
      · exact h.bytes i (List.forall_mem_cons.mpr ⟨by omega, hi⟩)
    · rw [length_overwrite hslot]
      exact inside other (List.mem_cons_of_mem _ hother)

end Bytes

end ObjectPack
