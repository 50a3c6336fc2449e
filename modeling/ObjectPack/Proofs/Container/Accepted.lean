import ObjectPack.Proofs.Container

/-!
# What acceptance says

Opening checks a byte string once; everything that later reads rely on is a consequence of these
checks.  They are collected here (`Reader.Accepted`), together with what they say about a data unit:
its bytes are the range that its record names (`unit?_eq_some`), and that range lies in the byte string
and has room for a unit header (`Accepted.inside`).
-/

namespace ObjectPack.Container

open Outcome

theorem Header.le_length {b : Bytes} {header : Header} (h : ofBytes b = .ok header) :
    headerSize ≤ b.length := by
  unfold ofBytes at h
  split at h
  · split at h
    · cases h
    · rename_i hlong
      exact Nat.le_of_not_lt hlong
  · cases h

namespace Reader

/-- What is known of a byte string that has been accepted. -/
structure Accepted (b : Bytes) (r : Reader) : Prop where
  bytes : r.bytes = b
  header : Header.ofBytes b = .ok r.header
  records : r.header.recordsEnd ≤ b.length
  fits : ∀ i < r.unitCount, r.recordFits i = true

theorem accepted_of_ofBytes {b : Bytes} {r : Reader} (h : ofBytes b = .ok r) : Accepted b r := by
  unfold ofBytes at h
  simp only [bind_eq_ok, refuse_if_eq_ok] at h
  obtain ⟨header, hheader, -, -, -, -, hrecords, h⟩ := h
  split at h
  · cases h
  · rename_i hnone
    cases h
    exact
      { bytes := rfl
        header := hheader
        records := Nat.le_of_not_lt hrecords
        fits := fun i hi => by simpa using List.find?_eq_none.mp hnone i (List.mem_range.mpr hi) }

variable {b : Bytes} {r : Reader} {i : Nat} {u : UnitReader}

/-- A table of records that ends inside holds all of them. -/
theorem record_inside (records : r.header.recordsEnd ≤ r.bytes.length) (hi : i < r.unitCount) :
    headerSize + i * recordSize + recordSize ≤ r.bytes.length := by
  have hle : (i + 1) * recordSize ≤ r.unitCount * recordSize := Nat.mul_le_mul_right _ hi
  rw [Nat.succ_mul] at hle
  unfold Header.recordsEnd at records
  unfold unitCount at hle
  omega

theorem read_record (records : r.header.recordsEnd ≤ r.bytes.length) (hi : i < r.unitCount) :
    UnitRecord.read r.endian ((r.bytes.drop (headerSize + i * recordSize)).take recordSize)
      = .ok (r.record i) := by
  have hinside := record_inside records hi
  have hlength : ((r.bytes.drop (headerSize + i * recordSize)).take recordSize).length = recordSize := by
    rw [List.length_take, List.length_drop]
    omega
  rw [UnitRecord.read, if_neg (by rw [hlength]; exact Nat.lt_irrefl _)]
  rfl

/-- The record of a data unit names a range of the byte string that can hold a unit header. -/
theorem Accepted.inside (h : Accepted b r) (hi : i < r.unitCount) :
    (r.record i).offset.toNat + (r.record i).size.toNat ≤ b.length ∧
      unitHeaderSize ≤ (r.record i).size.toNat := by
  have hfits := h.fits i hi
  rwa [recordFits, h.bytes, Bool.and_eq_true, decide_eq_true_eq, decide_eq_true_eq] at hfits

/-- The bytes of a data unit by its record. -/
def unitBytes (r : Reader) (i : Nat) : Bytes :=
  (r.bytes.drop (r.record i).offset.toNat).take (r.record i).size.toNat

/-- Data unit `i` as a reader sees it. -/
def view (r : Reader) (i : Nat) : UnitReader :=
  ⟨r.unitBytes i, r.record i, .ofBytes r.endian (r.unitBytes i), r.endian, r.header.pointers⟩

theorem unit?_of_lt (hi : i < r.unitCount) : r.unit? i = some (r.view i) := if_pos hi

theorem unit?_eq_some : r.unit? i = some u ↔ i < r.unitCount ∧ u = r.view i := by
  by_cases hi : i < r.unitCount
  · rw [unit?_of_lt hi, Option.some.injEq, eq_comm, and_iff_right hi]
  · rw [unit?, if_neg hi]
    constructor
    · intro h
      cases h
    · rintro ⟨hlt, -⟩
      exact absurd hlt hi

/-- All units are there. -/
theorem units_eq (r : Reader) : r.units = (List.range r.unitCount).map r.view := by
  rw [units, ← List.filterMap_eq_map]
  exact List.filterMap_congr fun i hi => unit?_of_lt (List.mem_range.mp hi)

theorem Accepted.length_unitBytes (h : Accepted b r) (hi : i < r.unitCount) :
    (r.unitBytes i).length = (r.record i).size.toNat := by
  have hinside := (h.inside hi).1
  rw [unitBytes, List.length_take, List.length_drop, h.bytes]
  omega

end Reader

end ObjectPack.Container
