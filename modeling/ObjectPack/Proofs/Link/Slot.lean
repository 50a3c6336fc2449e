import Mathlib.Data.List.Nodup
import Mathlib.Data.List.Pairwise
import ObjectPack.Container
import ObjectPack.Draft.Link
import ObjectPack.Proofs.Outcome
import ObjectPack.Proofs.Patch

/-!
# Reading slots and words back

Reading a word where one was written gives that word (`word32_encode`, `word64_encode`), also in the
middle of other bytes.  From this follows what a slot says: whatever its encoding, reading it as that
encoding prescribes gives the target that was written (`Refers`).
-/

namespace ObjectPack

open Outcome

namespace Endian

theorem decode_encode_of_lt (e : Endian) {width n : Nat} (h : n < Nat.pow 256 width) :
    e.decode (e.encode width n) = n := by
  rw [decode_encode, Nat.mod_eq_of_lt h]

/-- A word is read back where it stands. -/
theorem word32_of_hasAt {e : Endian} {v : UInt32} {b : Bytes} {start : Nat}
    (h : b.HasAt start (e.bytes32 v)) : e.word32 b start = v := by
  have hslice := h.slice
  rw [length_bytes32] at hslice
  rw [word32, hslice, bytes32, decode_encode_of_lt e v.toNat_lt, UInt32.ofNat_toNat]

theorem word64_of_hasAt {e : Endian} {v : UInt64} {b : Bytes} {start : Nat}
    (h : b.HasAt start (e.bytes64 v)) : e.word64 b start = v := by
  have hslice := h.slice
  rw [length_bytes64] at hslice
  rw [word64, hslice, bytes64, decode_encode_of_lt e v.toNat_lt, UInt64.ofNat_toNat]

/-- A word is read back where it was written. -/
theorem word32_encode (e : Endian) (v : UInt32) {n : Nat} {a c : Bytes} (h : a.length = n) :
    e.word32 (a ++ (e.bytes32 v ++ c)) n = v :=
  word32_of_hasAt (h ▸ Bytes.hasAt_append a _ c)

theorem word64_encode (e : Endian) (v : UInt64) {n : Nat} {a c : Bytes} (h : a.length = n) :
    e.word64 (a ++ (e.bytes64 v ++ c)) n = v :=
  word64_of_hasAt (h ▸ Bytes.hasAt_append a _ c)

/-- A signed word is read back where it was written. -/
theorem delta32_encode (e : Endian) (v : Int32) {n : Nat} {a c : Bytes} (h : a.length = n) :
    e.delta32 (a ++ ((Scalar.i32 v).encode e ++ c)) n = v.toInt := by
  have hencode : (Scalar.i32 v).encode e = e.bytes32 v.toUInt32 := rfl
  rw [delta32, hencode, word32_encode e _ h, Int32.toInt32_toUInt32]

end Endian

/-- Whether a slot that stands at `site` says in an encoding that it refers to `target`.  Of a chained
slot this is its second half; the first links to the next one. -/
def PointerEncoding.Refers (encoding : PointerEncoding) (e : Endian) (slot : Bytes)
    (site target : Nat) : Prop :=
  match encoding with
  | .absolute => (e.word64 slot 0).toNat = target
  | .relative => (e.word64 slot 0).toInt64.toInt = (target : Int) - site
  | .chained => e.delta32 slot 4 = (target : Int) - site

theorem delta32?_eq_some {d : Int} {v : Int32} (h : delta32? d = some v) : v.toInt = d := by
  unfold delta32? at h
  split at h
  · rename_i hrange
    cases h
    exact Int32.toInt_ofInt_of_le hrange.1 hrange.2
  · cases h

namespace Pointer

variable {p : Pointer} {e : Endian}

/-- What is read out of an absolute slot is the target that it was made of. -/
theorem word64_encodeAbsolute (p : Pointer) (e : Endian) :
    e.word64 (p.encodeAbsolute e) 0 = p.target.toUInt64 := by
  have hword := e.word64_encode p.target.toUInt64 (n := 0) (a := []) (c := []) rfl
  rw [List.append_nil, List.nil_append] at hword
  exact hword

theorem encodeAbsolute_refers (p : Pointer) (e : Endian) :
    PointerEncoding.absolute.Refers e (p.encodeAbsolute e) p.position.toNat p.target.toNat := by
  show (e.word64 (p.encodeAbsolute e) 0).toNat = _
  rw [p.word64_encodeAbsolute, UInt32.toNat_toUInt64]

theorem delta_bounds (p : Pointer) : -0x100000000 < p.delta ∧ p.delta < 0x100000000 := by
  have htarget := p.target.toNat_lt
  have hposition := p.position.toNat_lt
  unfold delta distance
  omega

/-- What is read out of a relative slot is the distance that it was made of. -/
theorem word64_encodeRelative (p : Pointer) (e : Endian) :
    (e.word64 (p.encodeRelative e) 0).toInt64.toInt = p.delta := by
  have hword := e.word64_encode (Int64.ofInt p.delta).toUInt64 (n := 0) (a := []) (c := []) rfl
  rw [List.append_nil, List.nil_append] at hword
  have hbounds := p.delta_bounds
  show (e.word64 (e.bytes64 (Int64.ofInt p.delta).toUInt64) 0).toInt64.toInt = _
  rw [hword, Int64.toInt64_toUInt64]
  exact Int64.toInt_ofInt_of_le (by omega) (by omega)

theorem encodeRelative_refers (p : Pointer) (e : Endian) :
    PointerEncoding.relative.Refers e (p.encodeRelative e) p.position.toNat p.target.toNat :=
  p.word64_encodeRelative e

/-- A chained slot is its link and its distance to the target. -/
theorem encodeChained?_eq_some {next : Option UInt32} {slot : Bytes}
    (h : p.encodeChained? next e = some slot) :
    e.delta32 slot 0 = next.elim 0 (fun n => distance p.position n) ∧
      e.delta32 slot 4 = p.delta ∧ slot.length = slotSize := by
  have hparts : ∃ link target : Int32, link.toInt = next.elim 0 (fun n => distance p.position n) ∧
      target.toInt = p.delta ∧
      slot = (Scalar.i32 link).encode e ++ ((Scalar.i32 target).encode e ++ []) := by
    simp only [List.append_nil]
    cases next with
    | none =>
      obtain ⟨target, htarget, h⟩ := Option.bind_eq_some_iff.mp h
      exact ⟨0, target, rfl, delta32?_eq_some htarget, (Option.some.inj h).symm⟩
    | some n =>
      obtain ⟨link, hlink, h⟩ := Option.bind_eq_some_iff.mp h
      obtain ⟨target, htarget, h⟩ := Option.bind_eq_some_iff.mp h
      exact ⟨link, target, delta32?_eq_some hlink, delta32?_eq_some htarget,
        (Option.some.inj h).symm⟩
  obtain ⟨link, target, hlink, htarget, rfl⟩ := hparts
  have hlength : ((Scalar.i32 link).encode e).length = 4 := Scalar.length_encode ..
  refine ⟨?_, ?_, ?_⟩
  · rw [← hlink]
    exact e.delta32_encode link (n := 0) (a := []) rfl
  · rw [← htarget]
    exact e.delta32_encode target hlength
  · rw [List.append_nil, List.length_append, hlength, Scalar.length_encode]
    rfl

theorem encodeChained?_refers {next : Option UInt32} {slot : Bytes}
    (h : p.encodeChained? next e = some slot) :
    PointerEncoding.chained.Refers e slot p.position.toNat p.target.toNat :=
  (encodeChained?_eq_some h).2.1

end Pointer

/-! ### The slots of a data unit -/

theorem chainedSlot_eq_ok {e : Endian} {p : Pointer} {next : Option UInt32} {slot : Bytes} :
    chainedSlot e p next = .ok slot ↔ p.encodeChained? next e = some slot := by
  unfold chainedSlot
  split
  · rename_i found hfound
    rw [hfound]
    constructor <;> intro h <;> cases h <;> rfl
  · rename_i hnone
    rw [hnone]
    refine ⟨fun h => ?_, fun h => by cases h⟩
    split at h
    · split at h <;> cases h
    · cases h

/-- Every chained pointer has its slot, which links to the next one. -/
theorem exists_chainedSlot {e : Endian} {before after : List Pointer} {p : Pointer}
    {slots : List (Nat × Bytes)} (h : chainedSlots e (before ++ p :: after) = .ok slots) :
    ∃ slot, (p.position.toNat, slot) ∈ slots ∧
      p.encodeChained? (after.head?.map (·.position)) e = some slot := by
  induction before generalizing slots with
  | nil =>
    simp only [List.nil_append, chainedSlots, bind_eq_ok, pure_eq_ok] at h
    obtain ⟨slot, hslot, rest, -, rfl⟩ := h
    exact ⟨slot, List.mem_cons_self, chainedSlot_eq_ok.mp hslot⟩
  | cons q before ih =>
    simp only [List.cons_append, chainedSlots, bind_eq_ok, pure_eq_ok] at h
    obtain ⟨_, -, rest, hrest, rfl⟩ := h
    obtain ⟨slot, hmem, hslot⟩ := ih hrest
    exact ⟨slot, List.mem_cons_of_mem _ hmem, hslot⟩

theorem chainedSlots_positions {e : Endian} {chained : List Pointer} {slots : List (Nat × Bytes)}
    (h : chainedSlots e chained = .ok slots) :
    slots.map Prod.fst = chained.map (·.position.toNat) ∧
      ∀ slot ∈ slots, slot.2.length = Pointer.slotSize := by
  induction chained generalizing slots with
  | nil =>
    cases h
    exact ⟨rfl, fun slot hslot => absurd hslot List.not_mem_nil⟩
  | cons p rest ih =>
    simp only [chainedSlots, bind_eq_ok, pure_eq_ok] at h
    obtain ⟨first, hfirst, later, hlater, rfl⟩ := h
    obtain ⟨hpositions, hlengths⟩ := ih hlater
    refine ⟨?_, ?_⟩
    · rw [List.map_cons, List.map_cons, hpositions]
    · intro slot hslot
      rcases List.mem_cons.mp hslot with rfl | hslot
      · exact (Pointer.encodeChained?_eq_some (chainedSlot_eq_ok.mp hfirst)).2.2
      · exact hlengths slot hslot

variable {e : Endian} {pointers : List (Pointer × PointerEncoding)} {slots : List (Nat × Bytes)}

theorem mem_chainedPointers {p : Pointer} :
    p ∈ chainedPointers pointers ↔ (p, PointerEncoding.chained) ∈ pointers := by
  unfold chainedPointers
  rw [List.mem_filterMap]
  constructor
  · rintro ⟨⟨q, encoding⟩, hq, h⟩
    obtain ⟨hchained, rfl⟩ : encoding = .chained ∧ q = p := by simpa using h
    exact hchained ▸ hq
  · intro h
    exact ⟨_, h, if_pos rfl⟩

theorem chainedPointers_positions (pointers : List (Pointer × PointerEncoding)) :
    (chainedPointers pointers).map (·.position.toNat)
      = (pointers.filter fun x => x.2 = .chained).map (·.1.position.toNat) := by
  induction pointers with
  | nil => rfl
  | cons x rest ih =>
    obtain ⟨p, encoding⟩ := x
    cases encoding
    case chained => exact congrArg _ ih
    all_goals exact ih

theorem plainSlots_positions (e : Endian) (pointers : List (Pointer × PointerEncoding)) :
    (pointers.filterMap (plainSlot? e)).map Prod.fst
      = (pointers.filter fun x => ! (x.2 = .chained : Bool)).map (·.1.position.toNat) := by
  induction pointers with
  | nil => rfl
  | cons x rest ih =>
    obtain ⟨p, encoding⟩ := x
    cases encoding
    case chained => exact ih
    all_goals exact congrArg _ ih

/-- All slots that linking writes: those of the chain come last. -/
theorem slots_positions (h : chainedSlots e (chainedPointers pointers) = .ok slots) :
    ((pointers.filterMap (plainSlot? e) ++ slots).map Prod.fst).Perm
      (pointers.map (·.1.position.toNat)) := by
  rw [List.map_append, plainSlots_positions, (chainedSlots_positions h).1,
    chainedPointers_positions, ← List.map_append]
  exact (List.perm_append_comm.trans
    (List.filter_append_perm (fun x : Pointer × PointerEncoding => x.2 = .chained) pointers)).map _

theorem slots_length (h : chainedSlots e (chainedPointers pointers) = .ok slots) :
    ∀ slot ∈ pointers.filterMap (plainSlot? e) ++ slots, slot.2.length = Pointer.slotSize := by
  intro slot hslot
  rcases List.mem_append.mp hslot with hslot | hslot
  · obtain ⟨⟨p, encoding⟩, -, heq⟩ := List.mem_filterMap.mp hslot
    cases encoding with
    | chained => cases heq
    | absolute =>
      cases heq
      exact Scalar.length_encode ..
    | relative =>
      cases heq
      exact Scalar.length_encode ..
  · exact (chainedSlots_positions h).2 slot hslot

/-- What linking writes into the slot of one of the pointers of a data unit. -/
def SlotOf (e : Endian) (pointers : List (Pointer × PointerEncoding)) (p : Pointer)
    (encoding : PointerEncoding) (slot : Bytes) : Prop :=
  match encoding with
  | .absolute => slot = p.encodeAbsolute e
  | .relative => slot = p.encodeRelative e
  | .chained => ∃ next : Option Pointer,
    (∀ q ∈ next, q ∈ chainedPointers pointers ∧ p.position.toNat < q.position.toNat) ∧
      (next = none → ∀ q ∈ chainedPointers pointers, q.position.toNat ≤ p.position.toNat) ∧
      p.encodeChained? (next.map (·.position)) e = some slot

theorem SlotOf.length {p : Pointer} {encoding : PointerEncoding} {slot : Bytes}
    (h : SlotOf e pointers p encoding slot) : slot.length = Pointer.slotSize := by
  cases encoding with
  | absolute => exact h ▸ Scalar.length_encode ..
  | relative => exact h ▸ Scalar.length_encode ..
  | chained =>
    obtain ⟨next, -, -, hslot⟩ := h
    exact (Pointer.encodeChained?_eq_some hslot).2.2

/-- A slot refers to the target of its pointer. -/
theorem SlotOf.refers {p : Pointer} {encoding : PointerEncoding} {slot : Bytes}
    (h : SlotOf e pointers p encoding slot) :
    encoding.Refers e slot p.position.toNat p.target.toNat := by
  cases encoding with
  | absolute => exact h ▸ p.encodeAbsolute_refers e
  | relative => exact h ▸ p.encodeRelative_refers e
  | chained =>
    obtain ⟨next, -, -, hslot⟩ := h
    exact Pointer.encodeChained?_refers hslot

/-- Whether the slots of pointers stand one behind the other. -/
def Ascending (pointers : List (Pointer × PointerEncoding)) : Prop :=
  pointers.Pairwise fun x y => x.1.position.toNat + Pointer.slotSize ≤ y.1.position.toNat

/-- Whether slots at two positions have no byte in common. -/
def PositionsApart (a b : Nat) : Prop := a + Pointer.slotSize ≤ b ∨ b + Pointer.slotSize ≤ a

instance : Std.Symm PositionsApart := ⟨fun _ _ h => h.symm⟩

/-- The slots of ascending pointers do not overlap. -/
theorem Ascending.slots_apart (ascending : Ascending pointers)
    (h : chainedSlots e (chainedPointers pointers) = .ok slots) :
    ∀ x ∈ pointers.filterMap (plainSlot? e) ++ slots,
      ∀ y ∈ pointers.filterMap (plainSlot? e) ++ slots, x = y ∨ SlotsApart x y := by
  have hpositions : (pointers.map (·.1.position.toNat)).Pairwise
      fun a b => a + Pointer.slotSize ≤ b := List.pairwise_map.mpr ascending
  have hperm := slots_positions h
  have hnodup : ((pointers.filterMap (plainSlot? e) ++ slots).map Prod.fst).Nodup := by
    refine hperm.nodup_iff.mpr (hpositions.imp fun hle heq => ?_)
    unfold Pointer.slotSize at hle
    omega
  intro x hx y hy
  by_cases heq : x = y
  · exact Or.inl heq
  · refine Or.inr ?_
    have hne : x.1 ≠ y.1 := fun hfst => heq (List.inj_on_of_nodup_map hnodup hx hy hfst)
    -- Two different positions are a slot's size apart, whichever comes first.
    have hall : (pointers.map (·.1.position.toNat)).Pairwise PositionsApart :=
      hpositions.imp Or.inl
    have hapart := hall.forall (hperm.subset (List.mem_map_of_mem hx))
      (hperm.subset (List.mem_map_of_mem hy)) hne
    unfold SlotsApart
    rwa [slots_length h x hx, slots_length h y hy]

/-- Each of some ascending pointers has its slot. -/
theorem Ascending.exists_slot (ascending : Ascending pointers)
    (h : chainedSlots e (chainedPointers pointers) = .ok slots) {p : Pointer}
    {encoding : PointerEncoding} (hp : (p, encoding) ∈ pointers) :
    ∃ slot, (p.position.toNat, slot) ∈ pointers.filterMap (plainSlot? e) ++ slots ∧
      SlotOf e pointers p encoding slot := by
  cases encoding with
  | absolute =>
    refine ⟨p.encodeAbsolute e, List.mem_append_left _ ?_, rfl⟩
    exact List.mem_filterMap.mpr ⟨_, hp, rfl⟩
  | relative =>
    refine ⟨p.encodeRelative e, List.mem_append_left _ ?_, rfl⟩
    exact List.mem_filterMap.mpr ⟨_, hp, rfl⟩
  | chained =>
    -- A chained slot leads to the next chained pointer, which is the nearest one behind it.
    have hpositions : (chainedPointers pointers).Pairwise
        fun q q' => q.position.toNat < q'.position.toNat := by
      refine List.pairwise_filterMap.mpr (ascending.imp ?_)
      rintro ⟨q, encoding⟩ ⟨q', encoding'⟩ hle b hb b' hb'
      obtain ⟨-, rfl⟩ : encoding = .chained ∧ q = b := by simpa using hb
      obtain ⟨-, rfl⟩ : encoding' = .chained ∧ q' = b' := by simpa using hb'
      simp only [Pointer.slotSize] at hle
      omega
    obtain ⟨before, after, hchained⟩ := List.append_of_mem (mem_chainedPointers.mpr hp)
    rw [hchained] at h hpositions
    obtain ⟨slot, hslot, hencode⟩ := exists_chainedSlot h
    have hbehind := (List.pairwise_cons.mp (List.pairwise_append.mp hpositions).2.1).1
    refine ⟨slot, List.mem_append_right _ hslot, after.head?, ?_, ?_, hencode⟩
    · intro q hq
      have hafter := List.mem_of_mem_head? hq
      refine ⟨?_, hbehind q hafter⟩
      rw [hchained]
      exact List.mem_append_right _ (List.mem_cons_of_mem _ hafter)
    · intro hlast q hq
      rw [hchained, List.head?_eq_none_iff.mp hlast] at hq
      rcases List.mem_append.mp hq with hq | hq
      · exact Nat.le_of_lt
          ((List.pairwise_append.mp hpositions).2.2 q hq p List.mem_cons_self)
      · exact List.mem_singleton.mp hq ▸ Nat.le_refl _

end ObjectPack
