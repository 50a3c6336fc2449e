import ObjectPack.Container.Reader
import ObjectPack.Proofs.Link.Slot

/-!
# Resolving slots
-/

namespace ObjectPack

/-! ### Slots of zeros -/

theorem all_zero_iff {slot : Bytes} {n : Nat} (h : slot.length = n) :
    slot.all (· = 0) = true ↔ slot = Bytes.zeros n := by
  rw [Bytes.zeros, List.eq_replicate_iff, List.all_eq_true]
  simp only [decide_eq_true_eq, h, true_and]

/-- Four bytes that stand for zero are zeros. -/
theorem zeros_of_word32 {e : Endian} {b : Bytes} {start : Nat} (inside : start + 4 ≤ b.length)
    (h : e.word32 b start = 0) : (b.drop start).take 4 = Bytes.zeros 4 := by
  have hlength : ((b.drop start).take 4).length = 4 := by
    rw [List.length_take, List.length_drop]
    omega
  have hlt := e.decode_lt ((b.drop start).take 4)
  rw [hlength] at hlt
  have hdecode : e.decode ((b.drop start).take 4) = 0 := by
    have hword := congrArg UInt32.toNat h
    unfold Endian.word32 at hword
    rwa [UInt32.toNat_ofNat_of_lt' hlt] at hword
  have hencode := e.encode_decode ((b.drop start).take 4)
  rw [hlength, hdecode] at hencode
  rw [← hencode]
  cases e <;> decide

theorem word32_of_delta32 {e : Endian} {b : Bytes} {start : Nat} (h : e.delta32 b start = 0) :
    e.word32 b start = 0 := by
  unfold Endian.delta32 at h
  have hword : (e.word32 b start).toInt32 = 0 := Int32.toInt_inj.mp h
  rw [← UInt32.toUInt32_toInt32 (e.word32 b start), hword]
  rfl

/-- A chained slot holds zeros only exactly if both of its halves stand for zero. -/
theorem zeros_iff_deltas (e : Endian) {slot : Bytes} (h : slot.length = Pointer.slotSize) :
    slot = Bytes.zeros Pointer.slotSize ↔ e.delta32 slot 0 = 0 ∧ e.delta32 slot 4 = 0 := by
  unfold Pointer.slotSize at h ⊢
  constructor
  · rintro rfl
    cases e <;> decide
  · rintro ⟨hlink, htarget⟩
    have hfirst := zeros_of_word32 (by omega) (word32_of_delta32 hlink)
    have hsecond := zeros_of_word32 (by omega) (word32_of_delta32 htarget)
    rw [List.drop_zero] at hfirst
    rw [List.take_of_length_le (by rw [List.length_drop]; omega)] at hsecond
    rw [← List.take_append_drop 4 slot, hfirst, hsecond]
    rfl

/-! ### Resolving -/

/-- Whether a pointer of a data unit looks like a null reference in an encoding. -/
def Pointer.LooksNull (p : Pointer) (encoding : PointerEncoding)
    (pointers : List (Pointer × PointerEncoding)) : Prop :=
  match encoding with
  | .absolute => p.target = 0
  | .relative => p.target = p.position
  | .chained => p.target = p.position ∧
    ∀ q ∈ chainedPointers pointers, q.position.toNat ≤ p.position.toNat

theorem Pointer.delta_eq_zero {p : Pointer} : p.delta = 0 ↔ p.target = p.position := by
  unfold delta distance
  rw [← UInt32.toNat_inj]
  omega

theorem ofInt_toNat (v : UInt32) : UInt32.ofInt (v.toNat : Int) = v := by
  have hlt := v.toNat_lt
  have hmod : ((v.toNat : Int) % 2 ^ 32).toNat = v.toNat := by omega
  rw [UInt32.ofInt, hmod, UInt32.ofNat_toNat]

namespace Container.UnitReader

variable {u : UnitReader} {site : UInt32} {slot : Bytes}

/-- Eight zero bytes are a null reference in every encoding. -/
theorem resolve_zeros (inside : site.toNat + Pointer.slotSize ≤ u.bytes.length)
    (h : u.bytes.HasAt site.toNat (Bytes.zeros Pointer.slotSize)) : u.resolve site = .ok none := by
  have hslice := h.slice? (Bytes.length_zeros _ ▸ inside)
  rw [Bytes.length_zeros] at hslice
  unfold resolve
  rw [hslice]
  cases u.pointers <;> cases u.endian <;> rfl

/-- A slot resolves to the target of its pointer, unless it looks like a null reference. -/
theorem resolve_slot {pointers : List (Pointer × PointerEncoding)} {p : Pointer}
    (inside : p.position.toNat + Pointer.slotSize ≤ u.bytes.length)
    (h : u.bytes.HasAt p.position.toNat slot) (hof : SlotOf u.endian pointers p u.pointers slot) :
    (p.LooksNull u.pointers pointers → u.resolve p.position = .ok none) ∧
      (¬ p.LooksNull u.pointers pointers → u.resolve p.position = .ok (some p.target)) := by
  have hlength := hof.length
  have hslice := h.slice? (hlength.symm ▸ inside)
  rw [hlength] at hslice
  unfold resolve
  rw [hslice]
  cases hpointers : u.pointers with
  | absolute =>
    rw [hpointers] at hof
    obtain rfl : slot = p.encodeAbsolute u.endian := hof
    have hzero : p.target.toUInt64 = 0 ↔ p.target = 0 := by
      rw [← UInt64.toNat_inj, ← UInt32.toNat_inj, UInt32.toNat_toUInt64]
      rfl
    simp only [p.word64_encodeAbsolute, hzero, Pointer.LooksNull]
    constructor
    · intro hnull
      rw [if_pos hnull]
    · intro hsome
      rw [if_neg hsome, UInt32.toUInt32_toUInt64]
  | relative =>
    rw [hpointers] at hof
    obtain rfl : slot = p.encodeRelative u.endian := hof
    have hsum : (p.position.toNat : Int) + p.delta = p.target.toNat := by
      unfold Pointer.delta distance
      omega
    have htarget := p.target.toNat_lt
    simp only [p.word64_encodeRelative, Pointer.delta_eq_zero, Pointer.LooksNull, hsum]
    constructor
    · intro hnull
      rw [if_pos hnull]
    · intro hsome
      rw [if_neg hsome, if_pos (by omega), ofInt_toNat]
  | chained =>
    rw [hpointers] at hof
    obtain ⟨next, hbehind, hlast, hencode⟩ := hof
    obtain ⟨hlink, hdelta, -⟩ := Pointer.encodeChained?_eq_some hencode
    have hsum : (p.position.toNat : Int) + p.delta = p.target.toNat := by
      unfold Pointer.delta distance
      omega
    -- The link is zero exactly at the end of the chain.
    have hend : u.endian.delta32 slot 0 = 0 ↔
        ∀ q ∈ chainedPointers pointers, q.position.toNat ≤ p.position.toNat := by
      rw [hlink]
      cases next with
      | none => exact ⟨fun _ => hlast rfl, fun _ => rfl⟩
      | some q =>
        obtain ⟨hmem, hlt⟩ := hbehind q rfl
        show distance p.position q.position = 0 ↔ _
        unfold distance
        constructor
        · intro hzero
          omega
        · intro hall
          have hle := hall q hmem
          omega
    have hzeros : slot.all (· = 0) = true ↔ p.LooksNull .chained pointers := by
      rw [all_zero_iff hlength, zeros_iff_deltas u.endian hlength, hend, hdelta,
        Pointer.delta_eq_zero, and_comm]
      rfl
    simp only [hdelta, hsum]
    constructor
    · intro hnull
      rw [if_pos (hzeros.mpr hnull)]
    · intro hsome
      rw [if_neg fun hall => hsome (hzeros.mp hall), ofInt_toNat]

end Container.UnitReader

end ObjectPack
