import ObjectPack.Proofs.Container.Accepted
import ObjectPack.Proofs.Link.Resolve

/-!
# What a slot denotes and what a reader makes of it

The eight bytes of a slot denote an exact integer: the number stored in it, or the sum of its position and
a signed number (`PointerEncoding.denotes?`).  A reader answers with 32 bits.  What is shown here of every
accepted byte string and every position is how the two are related (`UnitReader.resolve_exact_iff`): the
answer is what the slot denotes exactly if that is an offset of 32 bits; every other number is cut to its
low 32 bits, except for a sum that leaves 64 bits, which is a fault.  Both happen
(`exists_cut_reference`).
-/

namespace ObjectPack

open Outcome

/-- The number whose two's complement form of `width` bytes is `n`. -/
def signed (width n : Nat) : Int := if 2 * n < Nat.pow 256 width then n else n - Nat.pow 256 width

theorem signed_eq_zero_iff {width n : Nat} (h : n < Nat.pow 256 width) : signed width n = 0 ↔ n = 0 := by
  unfold signed
  split <;> omega

/-- An integer is cut to its low 32 bits. -/
theorem toNat_ofInt (v : Int) : ((UInt32.ofInt v).toNat : Int) = v % 0x100000000 := by
  have hlow : (v % 0x100000000).toNat < UInt32.size := by
    have hmod := Int.emod_lt_of_pos v (show (0 : Int) < 0x100000000 by decide)
    show _ < 4294967296
    omega
  have hcast : (UInt32.ofInt v).toNat = (v % 0x100000000).toNat := UInt32.toNat_ofNat_of_lt' hlow
  rw [hcast, Int.toNat_of_nonneg (Int.emod_nonneg v (by decide))]

namespace Endian

/-- A word is what its bytes decode to; eight bytes never exceed it. -/
theorem toNat_word64 (e : Endian) (b : Bytes) (start : Nat) :
    (e.word64 b start).toNat = e.decode ((b.drop start).take 8) := by
  have hlt := e.decode_lt ((b.drop start).take 8)
  have hle : Nat.pow 256 ((b.drop start).take 8).length ≤ Nat.pow 256 8 :=
    Nat.pow_le_pow_right (by decide) (List.length_take_le ..)
  exact UInt64.toNat_ofNat_of_lt' (Nat.lt_of_lt_of_le hlt hle)

theorem toNat_word32 (e : Endian) (b : Bytes) (start : Nat) :
    (e.word32 b start).toNat = e.decode ((b.drop start).take 4) := by
  have hlt := e.decode_lt ((b.drop start).take 4)
  have hle : Nat.pow 256 ((b.drop start).take 4).length ≤ Nat.pow 256 4 :=
    Nat.pow_le_pow_right (by decide) (List.length_take_le ..)
  exact UInt32.toNat_ofNat_of_lt' (Nat.lt_of_lt_of_le hlt hle)

/-- A signed word is the two's complement number that its bytes stand for. -/
theorem toInt_word64 (e : Endian) (b : Bytes) (start : Nat) :
    (e.word64 b start).toInt64.toInt = signed 8 (e.decode ((b.drop start).take 8)) := by
  rw [← e.toNat_word64]
  rfl

theorem delta32_eq (e : Endian) (b : Bytes) (start : Nat) :
    e.delta32 b start = signed 4 (e.decode ((b.drop start).take 4)) := by
  rw [← e.toNat_word32]
  rfl

theorem digits_zero (width : Nat) : digits width 0 = Bytes.zeros width := by
  induction width with
  | zero => rfl
  | succ width ih =>
    rw [digits, ih]
    rfl

/-- Bytes decode to zero only if all of them are zero. -/
theorem decode_eq_zero_iff (e : Endian) (b : Bytes) : e.decode b = 0 ↔ b.all (· = 0) = true := by
  have hzeros : Bytes.zeros b.length = e.encode b.length 0 := by
    cases e <;> simp [encode, digits_zero, Bytes.zeros]
  rw [all_zero_iff rfl, hzeros]
  constructor
  · intro h
    have hencode := e.encode_decode b
    rwa [h, eq_comm] at hencode
  · intro h
    rw [h, decode_encode, Nat.zero_mod]

end Endian

/-! ### What slots denote -/

/-- The offset that a slot at `site` denotes, as an exact integer; `none` for a null reference, which is a
slot of zeros. -/
def PointerEncoding.denotes? (encoding : PointerEncoding) (e : Endian) (site : Nat) (slot : Bytes) :
    Option Int :=
  if slot.all (· = 0) then none
  else
    match encoding with
    | .absolute => some (e.decode slot)
    | .relative => some (site + signed 8 (e.decode slot))
    | .chained => some (site + signed 4 (e.decode (slot.drop 4)))

namespace Container

/-- What the container holds at `site` of data unit `i`; `none` also for a slot that leaves the unit. -/
def Reader.denotes? (r : Reader) (i : Nat) (site : UInt32) : Option Int :=
  if site.toNat + Pointer.slotSize ≤ (r.record i).size.toNat then
    r.header.pointers.denotes? r.endian site.toNat
      ((r.bytes.drop ((r.record i).offset.toNat + site.toNat)).take Pointer.slotSize)
  else none

namespace UnitReader

variable {b slot : Bytes} {r : Reader} {i : Nat} {u : UnitReader} {site : UInt32}

/-- What a reader answers where a slot denotes `denoted`. -/
def answer (encoding : PointerEncoding) (denoted : Option Int) : Except Fault (Option UInt32) :=
  if encoding = .relative ∧ ∃ v ∈ denoted, 0x8000000000000000 ≤ v then .error .overflow
  else .ok (denoted.map UInt32.ofInt)

theorem resolve_eq_answer (h : u.bytes.slice? site.toNat Pointer.slotSize = some slot) :
    u.resolve site = answer u.pointers (u.pointers.denotes? u.endian site.toNat slot) := by
  have hlength := Bytes.length_of_slice? h
  have hwhole : (slot.drop 0).take 8 = slot := List.take_of_length_le (Nat.le_of_eq hlength)
  have hrest : (slot.drop 4).take 4 = slot.drop 4 := by
    rw [List.take_of_length_le]
    rw [List.length_drop, hlength]
    decide
  have hzero := u.endian.decode_eq_zero_iff slot
  have hstored := u.endian.toNat_word64 slot 0
  have hsigned := u.endian.toInt_word64 slot 0
  have hdelta := u.endian.delta32_eq slot 4
  rw [hwhole] at hstored hsigned
  rw [hrest] at hdelta
  unfold resolve answer PointerEncoding.denotes?
  rw [h]
  have hlt := u.endian.decode_lt slot
  rw [hlength] at hlt
  cases u.pointers with
  | absolute =>
    have hword : u.endian.word64 slot 0 = 0 ↔ slot.all (· = 0) = true := by
      rw [← hzero, ← hstored, ← UInt64.toNat_inj]
      rfl
    have hcut : (u.endian.word64 slot 0).toUInt32 = UInt32.ofInt (u.endian.decode slot) := by
      have hlow := toNat_ofInt (u.endian.decode slot)
      rw [← UInt32.toNat_inj, UInt64.toNat_toUInt32, hstored]
      omega
    simp only [hword, hcut, reduceCtorEq, false_and, if_false]
    split <;> rfl
  | relative =>
    have hnull : signed 8 (u.endian.decode slot) = 0 ↔ slot.all (· = 0) = true := by
      rw [← hzero]
      exact signed_eq_zero_iff hlt
    simp only [hsigned, hnull, true_and]
    by_cases hall : slot.all (· = 0) = true
    · simp only [if_pos hall, Option.mem_def, reduceCtorEq, false_and, exists_false, if_false, Option.map_none]
    · simp only [if_neg hall, Option.mem_def, Option.some.injEq, exists_eq_left', Option.map_some]
      split
      · rw [if_neg (by omega)]
      · rw [if_pos (by omega)]
  | chained =>
    simp only [hdelta, reduceCtorEq, false_and, if_false]
    split <;> rfl

/-- A reader sees the bytes of the container through its data unit. -/
theorem resolve_of_accepted (accepted : Reader.ofBytes b = .ok r) (found : r.unit? i = some u)
    (site : UInt32) : u.resolve site = answer r.header.pointers (r.denotes? i site) := by
  have haccepted := Reader.accepted_of_ofBytes accepted
  obtain ⟨hi, rfl⟩ := Reader.unit?_eq_some.mp found
  have hlength := haccepted.length_unitBytes hi
  unfold Reader.denotes?
  split
  · rename_i hinside
    refine resolve_eq_answer ?_
    show (r.unitBytes i).slice? site.toNat Pointer.slotSize = some _
    rw [Bytes.slice?, if_pos (hlength ▸ hinside), Reader.unitBytes, List.drop_take, List.take_take,
      List.drop_drop, Nat.min_eq_left (by omega)]
  · rename_i houtside
    have hnone : (r.view i).bytes.slice? site.toNat Pointer.slotSize = none := if_neg (hlength ▸ houtside)
    rw [resolve, hnone, answer, if_neg (by simp)]
    rfl

/-- A reader answers with what a slot denotes exactly if that is an offset of 32 bits.  It breaks off
exactly if a relative slot denotes what does not fit a signed number of 64 bits; in all other cases the
answer agrees with what the slot denotes in its low 32 bits only. -/
theorem resolve_exact_iff (accepted : Reader.ofBytes b = .ok r) (found : r.unit? i = some u)
    (site : UInt32) :
    ((∃ target, u.resolve site = .ok target ∧ target.map (fun t => (t.toNat : Int)) = r.denotes? i site) ↔
        ∀ v ∈ r.denotes? i site, 0 ≤ v ∧ v < 0x100000000) ∧
      ((∃ fault, u.resolve site = .error fault) ↔
        r.header.pointers = .relative ∧ ∃ v ∈ r.denotes? i site, 0x8000000000000000 ≤ v) ∧
      ∀ target, u.resolve site = .ok target →
        target.map (fun t => (t.toNat : Int)) = (r.denotes? i site).map (· % 0x100000000) := by
  rw [resolve_of_accepted accepted found site]
  generalize r.denotes? i site = denoted
  have hcut : (denoted.map UInt32.ofInt).map (fun t => (t.toNat : Int)) = denoted.map (· % 0x100000000) := by
    rw [Option.map_map]
    exact Option.map_congr fun v _ => toNat_ofInt v
  unfold answer
  refine ⟨?_, ?_, ?_⟩
  · split
    · rename_i hoverflow
      obtain ⟨-, v, hv, hlarge⟩ := hoverflow
      constructor
      · rintro ⟨target, h, -⟩
        cases h
      · intro hoffset
        have hbound := (hoffset v hv).2
        omega
    · simp only [Except.ok.injEq, exists_eq_left', hcut]
      cases denoted with
      | none => simp
      | some v =>
        simp only [Option.map_some, Option.some.injEq, Option.mem_def, forall_eq']
        omega
  · split
    · rename_i hoverflow
      exact ⟨fun _ => hoverflow, fun _ => ⟨_, rfl⟩⟩
    · rename_i hfits
      constructor
      · rintro ⟨fault, h⟩
        cases h
      · intro h
        exact absurd h hfits
  · intro target h
    split at h
    · cases h
    · cases h
      exact hcut

/-- The bytes of a little-endian container with one data unit that holds one slot and nothing else. -/
def oneSlot (encoding : PointerEncoding) (slot : Bytes) : Bytes :=
  let rest := (UnitRecord.mk 0 48 24).toBytes .little ++ UnitHeader.blank.toBytes .little ++ slot
  let header := { Header.blank with
    pointers := encoding, checksum := Checksum.crc32 rest, totalSize := 72, unitCount := 1 }
  header.toBytes ++ rest

/-- A slot that refers backwards by its own size. -/
def backwards : Bytes := [0xf8, 0xff, 0xff, 0xff, 0xff, 0xff, 0xff, 0xff]

theorem resolve_exact_backwards : ∃ r u, Reader.ofBytes (oneSlot .relative backwards) = .ok r ∧
    r.unit? 0 = some u ∧ r.denotes? 0 16 = some 8 ∧
    ∃ target, u.resolve 16 = .ok target ∧ target.map (fun t => (t.toNat : Int)) = some 8 := by
  have hcheck : ((Reader.ofBytes (oneSlot .relative backwards)).toOption.any fun r =>
      (r.unit? 0).any fun _ => r.denotes? 0 16 = some 8) = true := by decide +kernel
  simp only [Option.any_eq_true, decide_eq_true_eq, toOption_eq_some] at hcheck
  obtain ⟨r, hr, u, hu, hdenotes⟩ := hcheck
  have hexact := (resolve_exact_iff hr hu 16).1
  rw [hdenotes] at hexact
  exact ⟨r, u, hr, hu, hdenotes, hexact.mpr fun v hv => Option.some.inj hv ▸ by decide⟩

/-- Whether a slot that denotes `denoted` is answered with `answered` in some container. -/
def Answered (encoding : PointerEncoding) (denoted : Int) (answered : Except Fault (Option UInt32)) : Prop :=
  ∃ slot r u, Reader.ofBytes (oneSlot encoding slot) = .ok r ∧ r.unit? 0 = some u ∧
    r.denotes? 0 16 = some denoted ∧ u.resolve 16 = answered

theorem answered_of_check {encoding : PointerEncoding} {denoted : Int}
    {answered : Except Fault (Option UInt32)} {s : Bytes}
    (h : ((Reader.ofBytes (oneSlot encoding s)).toOption.any fun r => (r.unit? 0).any fun u =>
      r.denotes? 0 16 = some denoted && u.resolve 16 = answered) = true) :
    Answered encoding denoted answered := by
  simp only [Option.any_eq_true, Bool.and_eq_true, decide_eq_true_eq, toOption_eq_some] at h
  obtain ⟨r, hr, u, hu, hdenotes, hresolve⟩ := h
  exact ⟨s, r, u, hr, hu, hdenotes, hresolve⟩

/-- Offsets beyond 32 bits and in front of the data unit are cut, and a sum can leave 64 bits. -/
theorem exists_cut_reference : Answered .absolute 0x100000010 (.ok (some 16)) ∧
    Answered .chained (-1) (.ok (some 0xffffffff)) ∧
    Answered .relative 0x100000010 (.ok (some 16)) ∧
    Answered .relative 0x800000000000000f (.error .overflow) :=
  ⟨answered_of_check (s := [0x10, 0, 0, 0, 1, 0, 0, 0]) (by decide +kernel),
    answered_of_check (s := [0, 0, 0, 0, 0xef, 0xff, 0xff, 0xff]) (by decide +kernel),
    answered_of_check (s := [0, 0, 0, 0, 1, 0, 0, 0]) (by decide +kernel),
    answered_of_check (s := [0xff, 0xff, 0xff, 0xff, 0xff, 0xff, 0xff, 0x7f]) (by decide +kernel)⟩

end UnitReader

end Container

end ObjectPack
