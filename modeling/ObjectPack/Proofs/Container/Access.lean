import ObjectPack.Container.Access
import ObjectPack.Proofs.Container.Accepted

/-!
# No access goes wrong

Opening looks at bytes, ranges and positions that the byte string itself names.  All of these accesses
succeed: opening gives the container or the error that `Reader.ofBytes` gives (`Reader.load_eq`), and the
units and texts of an accepted container and the walks along its chains are those of `Reader.unit?`,
`UnitReader.text?` and `Chain.step`.
-/

namespace ObjectPack

open Outcome

/-! ### Accesses that succeed -/

@[simp] theorem Outcome.lift_ok {ε α : Type} (a : α) :
    (liftM (.ok a : Except Fault α) : Except (Failure ε) α) = .ok a := rfl

@[simp] theorem Outcome.ok_bind {ε α β : Type} (a : α) (f : α → Except ε β) : (.ok a >>= f) = f a := rfl

/-- A refusal that is an answer among failures is the same refusal on its own. -/
theorem Outcome.refuse_mapError {ε ε' α β : Type} {p : Prop} [Decidable p] {e : ε} {f : ε → ε'}
    {next : α → Except ε' β} {next' : α → Except ε β} {rest : Except ε' β} {rest' : Except ε β}
    (h : ¬ p → rest = rest'.mapError f) :
    (if p then throw (f e) >>= next else rest) = (if p then throw e >>= next' else rest').mapError f := by
  by_cases hp : p
  · rw [if_pos hp, if_pos hp]
    rfl
  · rw [if_neg hp, if_neg hp, h hp]

theorem sized_eq {n : Nat} (h : n < sizeLimit) : sized n = .ok n := if_pos h

theorem signedWord_eq {n : Int} (low : -0x8000000000000000 ≤ n) (high : n < 0x8000000000000000) :
    signedWord n = .ok n := if_pos ⟨low, high⟩

namespace Bytes

variable {b : Bytes} {start stop : Nat}

theorem range_eq (order : start ≤ stop) (inside : stop ≤ b.length) :
    b.range start stop = .ok ((b.drop start).take (stop - start)) := if_pos ⟨order, inside⟩

/-- A slice that is there is a range. -/
theorem range_of_slice? {s : Bytes} {length : Nat} (h : b.slice? start length = some s) :
    b.range start (start + length) = .ok s := by
  unfold slice? at h
  split at h
  · rename_i hinside
    rw [range_eq (Nat.le_add_right ..) hinside, Nat.add_sub_cancel_left]
    exact congrArg Except.ok (Option.some.inj h)
  · cases h

end Bytes

/-- Four bytes that are cut out are read as they are read where they stand. -/
theorem Endian.load32_take (e : Endian) {b : Bytes} {i : Nat} (inside : i + 4 ≤ b.length) :
    e.load32 ((b.drop i).take 4) = .ok (e.word32 b i) := by
  have hlength : ((b.drop i).take 4).length = 4 := by
    rw [List.length_take, List.length_drop]
    omega
  rw [load32, Bytes.range_eq (by decide) (Nat.le_of_eq hlength.symm), ok_bind, word32, word32, List.drop_zero,
    List.drop_zero, List.take_take, List.take_take]
  rfl

theorem Endian.loadDelta32_take (e : Endian) {b : Bytes} {i : Nat} (inside : i + 4 ≤ b.length) :
    e.loadDelta32 ((b.drop i).take 4) = .ok (e.delta32 b i) := by
  rw [loadDelta32, e.load32_take inside]
  rfl

/-! ### Chains -/

theorem Endian.delta32_bounds (e : Endian) (b : Bytes) (start : Nat) :
    -0x80000000 ≤ e.delta32 b start ∧ e.delta32 b start < 0x80000000 :=
  ⟨Int32.le_toInt _, Int32.toInt_lt _⟩

theorem oneLess_eq {n : Nat} (h : n ≠ 0) : oneLess n = .ok (n - 1) := by
  cases n with
  | zero => exact absurd rfl h
  | succ n => rfl

/-- A step of a walk succeeds, wherever the links lead. -/
theorem Chain.advance_eq (c : Chain) : c.advance = .ok c.step := by
  unfold advance step
  by_cases hremaining : c.remaining = 0
  · rw [if_pos hremaining, if_pos hremaining]
    rfl
  rw [if_neg hremaining, if_neg hremaining]
  cases c.next with
  | none => rfl
  | some position =>
    have hposition := position.toNat_lt
    have hstop : sized (position.toNat + Pointer.slotSize) = .ok (position.toNat + Pointer.slotSize) :=
      sized_eq (by unfold Pointer.slotSize sizeLimit; omega)
    by_cases hinside : position.toNat + Pointer.slotSize ≤ c.unit.length
    · obtain ⟨slot, hslot⟩ : ∃ slot, c.unit.slice? position.toNat Pointer.slotSize = some slot :=
        ⟨_, if_pos hinside⟩
      have hlength := Bytes.length_of_slice? hslot
      have hrange : c.unit.range position.toNat (position.toNat + Pointer.slotSize) = .ok slot :=
        Bytes.range_of_slice? hslot
      have hfirst : slot.range 0 4 = .ok ((slot.drop 0).take 4) :=
        Bytes.range_eq (by decide) (by rw [hlength]; decide)
      have hsecond : slot.range 4 8 = .ok ((slot.drop 4).take 4) :=
        Bytes.range_eq (by decide) (Nat.le_of_eq hlength.symm)
      have hlink := c.endian.loadDelta32_take (b := slot) (i := 0) (by rw [hlength]; decide)
      have hdelta := c.endian.loadDelta32_take (b := slot) (i := 4) (Nat.le_of_eq hlength.symm)
      have hbounds := c.endian.delta32_bounds slot
      have hsum (start : Nat) := signedWord_eq (n := position.toNat + c.endian.delta32 slot start)
        (by have := hbounds start; omega) (by have := hbounds start; omega)
      simp only [hstop, hrange, hfirst, hsecond, hlink, hdelta, hsum, oneLess_eq hremaining, hslot, ok_bind,
        if_neg (Nat.not_lt.mpr hinside)]
      split <;> rfl
    · simp only [hstop, ok_bind, if_pos (Nat.lt_of_not_le hinside), Bytes.slice?, if_neg hinside]
      rfl

/-- Every walk succeeds, and so do the steps after its end. -/
theorem Chain.visits_eq (n : Nat) (c : Chain) : c.visits n = .ok (c.steps n) := by
  induction n generalizing c with
  | zero => rfl
  | succ n ih =>
    rw [visits, c.advance_eq, ok_bind, steps]
    simp only [ih]
    rfl

namespace Container

/-! ### Opening -/

/-- The first six bytes of a byte string that has as many. -/
theorem exists_first_six {b : Bytes} (h : 6 ≤ b.length) : ∃ m0 m1 m2 m3 order mode rest,
    b = m0 :: m1 :: m2 :: m3 :: order :: mode :: rest := by
  match b, h with
  | m0 :: m1 :: m2 :: m3 :: order :: mode :: rest, _ =>
    exact ⟨m0, m1, m2, m3, order, mode, rest, rfl⟩

theorem Header.load_eq (b : Bytes) : load b = (ofBytes b).mapError .error := by
  unfold load
  split
  · rename_i hshort
    unfold ofBytes
    split
    · rw [if_pos hshort]
      rfl
    · rfl
  · rename_i hlong
    have hlength : 32 ≤ b.length := Nat.le_of_not_lt hlong
    have hword (e : Endian) (start : Nat) (h : start + 4 ≤ 32) :
        b.range start (start + 4) = .ok ((b.drop start).take 4) ∧
          e.load32 ((b.drop start).take 4) = .ok (e.word32 b start) := by
      rw [Bytes.range_eq (by omega) (by omega), Nat.add_sub_cancel_left, e.load32_take (by omega)]
      exact ⟨rfl, rfl⟩
    have hversion (e : Endian) := hword e 8 (by decide)
    have hchecksum (e : Endian) := hword e 12 (by decide)
    have hsize (e : Endian) := hword e 16 (by decide)
    have hcount (e : Endian) := hword e 20 (by decide)
    obtain ⟨m0, m1, m2, m3, order, mode, rest, rfl⟩ := exists_first_six (b := b) (by omega)
    rw [ofBytes, if_neg hlong]
    simp only [Bytes.byteAt, List.getElem?_cons_succ, List.getElem?_cons_zero, indexed, lift_ok, ok_bind]
    cases Endian.ofMarker? order with
    | none => rfl
    | some e =>
      cases PointerEncoding.ofMarker? mode with
      | none => rfl
      | some pointers =>
        simp only [marked, ok_bind, lift_ok, hversion e, hchecksum e, hsize e, hcount e]
        rfl

namespace Reader

variable {b : Bytes} {r : Reader} {i : Nat}

/-- The table of records lies inside, so each of them can be looked at. -/
theorem loadRecord_eq (records : r.header.recordsEnd ≤ r.bytes.length) (hi : i < r.unitCount) :
    r.loadRecord i = .ok (r.record i) := by
  have hcount : r.unitCount < 2 ^ 32 := r.header.unitCount.toNat_lt
  have hsmall : headerSize + i * recordSize + recordSize < sizeLimit := by
    unfold headerSize recordSize sizeLimit
    omega
  rw [loadRecord, sized_eq (by omega), ok_bind, sized_eq (by omega), ok_bind, sized_eq hsmall, ok_bind,
    Bytes.range_eq (by omega) (record_inside records hi), ok_bind, Nat.add_sub_cancel_left,
    read_record records hi]

theorem checkUnit_eq (records : r.header.recordsEnd ≤ r.bytes.length) (hi : i < r.unitCount) :
    r.checkUnit i = if r.recordFits i then .ok () else .error (.error (.unitOutOfBounds i)) := by
  have hoffset := (r.record i).offset.toNat_lt
  have hsize := (r.record i).size.toNat_lt
  rw [checkUnit, loadRecord_eq records hi, lift_ok, ok_bind, sized_eq (by unfold sizeLimit; omega), lift_ok,
    ok_bind, recordFits]
  by_cases hfits : (r.record i).offset.toNat + (r.record i).size.toNat ≤ r.bytes.length ∧
      unitHeaderSize ≤ (r.record i).size.toNat
  · rw [if_neg (by omega), if_pos (by simpa using hfits)]
    rfl
  · rw [if_pos (by omega), if_neg (by simpa using hfits)]
    rfl

/-- The first unit that does not fit is reported. -/
theorem checkUnits_eq (records : r.header.recordsEnd ≤ r.bytes.length) {l : List Nat}
    (hl : ∀ i ∈ l, i < r.unitCount) :
    l.forM r.checkUnit = match l.find? fun i => ! r.recordFits i with
      | some i => .error (.error (.unitOutOfBounds i))
      | none => .ok () := by
  induction l with
  | nil => rfl
  | cons i l ih =>
    show (r.checkUnit i >>= fun _ => l.forM r.checkUnit) = _
    rw [checkUnit_eq records (hl i List.mem_cons_self), List.find?_cons]
    cases hfits : r.recordFits i with
    | true => exact ih fun j hj => hl j (List.mem_cons_of_mem _ hj)
    | false => rfl

theorem load_eq (b : Bytes) : load b = (ofBytes b).mapError .error := by
  unfold load ofBytes
  rw [Header.load_eq]
  cases hheader : Header.ofBytes b with
  | error e => rfl
  | ok header =>
    have hlength := Header.le_length hheader
    have hcount := header.unitCount.toNat_lt
    have hend : header.loadRecordsEnd = .ok header.recordsEnd := by
      rw [Header.loadRecordsEnd, sized_eq (by unfold recordSize sizeLimit; omega), ok_bind,
        sized_eq (by unfold recordSize headerSize sizeLimit; omega)]
      rfl
    refine refuse_mapError fun hmagic => ?_
    refine refuse_mapError fun hversion => ?_
    refine refuse_mapError fun hsize => ?_
    rw [Bytes.range_eq hlength (Nat.le_refl _), lift_ok, ok_bind, ← List.length_drop, List.take_length]
    refine refuse_mapError fun hchecksum => ?_
    rw [hend, lift_ok, ok_bind]
    refine refuse_mapError fun hrecords => ?_
    have hunits := checkUnits_eq (r := ⟨b, header⟩) (Nat.le_of_not_lt hrecords)
      fun i hi => List.mem_range.mp hi
    simp only [hunits]
    cases (List.range (Reader.mk b header).unitCount).find? fun i => ! (Reader.mk b header).recordFits i <;> rfl

variable {u : UnitReader}

/-- Looking up a unit of an accepted container succeeds. -/
theorem loadUnit?_eq (accepted : Accepted b r) (i : Nat) : r.loadUnit? i = .ok (r.unit? i) := by
  have hrecords := accepted.records
  rw [← accepted.bytes] at hrecords
  rw [loadUnit?, unit?]
  by_cases hi : i < r.unitCount
  · have hinside := accepted.inside hi
    have hoffset := (r.record i).offset.toNat_lt
    have hsize := (r.record i).size.toNat_lt
    have hlength := accepted.length_unitBytes hi
    rw [if_neg (Nat.not_le.mpr hi), if_pos hi, loadRecord_eq hrecords hi, ok_bind,
      sized_eq (by unfold sizeLimit; omega), ok_bind,
      Bytes.range_eq (Nat.le_add_right ..) (accepted.bytes ▸ hinside.1), ok_bind, Nat.add_sub_cancel_left,
      UnitHeader.read, if_neg]
    · rfl
    · show ¬ (r.unitBytes i).length < 12
      have hlarge : 16 ≤ _ := hinside.2
      omega
  · rw [if_pos (Nat.le_of_not_lt hi), if_neg hi]
    rfl

theorem loadUnits_eq (accepted : Accepted b r) : r.loadUnits = .ok r.units := by
  have hall (l : List Nat) : l.mapM r.loadUnit? = .ok (l.map r.unit?) := by
    induction l with
    | nil => rfl
    | cons i l ih =>
      rw [List.mapM_cons, loadUnit?_eq accepted, ih]
      rfl
  rw [loadUnits, hall, ok_bind, units, List.filterMap_map]
  rfl

end Reader

/-- The bytes in front of the first zero. -/
theorem takeWhile_eq_take (b : Bytes) : b.takeWhile (· ≠ 0) = b.take (b.findIdx (· = 0)) := by
  rw [List.takeWhile_eq_take_findIdx_not]
  congr 2
  funext x
  rw [decide_not, Bool.not_not]

/-- Reading a text succeeds, wherever it starts. -/
theorem UnitReader.loadText?_eq (u : UnitReader) (position : UInt32) :
    u.loadText? position = .ok (u.text? position) := by
  rw [loadText?, text?]
  by_cases hinside : u.bytes.length < position.toNat
  · rw [if_pos hinside, List.drop_eq_nil_of_le (Nat.le_of_lt hinside)]
    rfl
  · rw [if_neg hinside, Bytes.range_eq (Nat.le_of_not_lt hinside) (Nat.le_refl _), ok_bind,
      ← List.length_drop, List.take_length]
    generalize u.bytes.drop position.toNat = tail
    simp only [takeWhile_eq_take, List.length_take]
    cases hfound : tail.findIdx? (· = 0) with
    | none =>
      rw [List.findIdx?_eq_none_iff_findIdx_eq.mp hfound, if_neg (by omega)]
      rfl
    | some stop =>
      obtain ⟨hstop, hindex⟩ := List.findIdx?_eq_some_iff_findIdx_eq.mp hfound
      rw [hindex, if_pos (by omega)]
      simp only [Bytes.range_eq (Nat.zero_le stop) (Nat.le_of_lt hstop), ok_bind, List.drop_zero, Nat.sub_zero]
      rfl

end Container

end ObjectPack
