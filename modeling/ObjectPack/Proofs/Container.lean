import ObjectPack.Container.Reader
import ObjectPack.Proofs.Link.Slot

/-!
# Reading container records back

The records of a container are read back where they stand: the header at the front
(`Header.ofBytes_toBytes`), unit records and unit headers wherever they are cut out (`UnitRecord.ofBytes_toBytes`,
`UnitHeader.ofBytes_toBytes`).  Records of one size follow each other at multiples of that size
(`flatMap_hasAt`).
-/

namespace ObjectPack

/-- Parts of one size follow each other at multiples of that size. -/
theorem flatMap_hasAt {α : Type} {size : Nat} {f : α → Bytes} (hsize : ∀ a, (f a).length = size)
    {l : List α} {i : Nat} {a : α} (h : l[i]? = some a) : Bytes.HasAt (l.flatMap f) (i * size) (f a) := by
  induction l generalizing i with
  | nil => cases h
  | cons b rest ih =>
    rw [List.flatMap_cons]
    cases i with
    | zero =>
      cases h
      rw [Nat.zero_mul]
      exact Bytes.hasAt_append [] _ _
    | succ i =>
      intro j hj
      have hindex : (i + 1) * size + j - size = i * size + j := by
        rw [Nat.succ_mul]
        omega
      rw [List.getElem?_append_right (by rw [hsize, Nat.succ_mul]; omega), hsize, hindex]
      exact ih h j hj

namespace Container

theorem Header.ofBytes_toBytes (h : Header) (rest : Bytes) :
    Header.ofBytes (h.toBytes ++ rest) = .ok h := by
  obtain ⟨⟨⟨magic⟩, hmagic⟩, e, pointers, version, checksum, totalSize, unitCount⟩ := h
  obtain ⟨m0, m1, m2, m3, rfl⟩ : ∃ m0 m1 m2 m3, magic = [m0, m1, m2, m3] := by
    match magic, hmagic with
    | [m0, m1, m2, m3], _ => exact ⟨m0, m1, m2, m3, rfl⟩
  have hversion := e.word32_encode version (n := 8)
    (a := [m0, m1, m2, m3, e.marker, pointers.marker, 0, 0])
    (c := e.bytes32 checksum ++ (e.bytes32 totalSize ++ (e.bytes32 unitCount
      ++ (Bytes.zeros 8 ++ rest)))) rfl
  have hchecksum := e.word32_encode checksum (n := 12)
    (a := [m0, m1, m2, m3, e.marker, pointers.marker, 0, 0] ++ e.bytes32 version)
    (c := e.bytes32 totalSize ++ (e.bytes32 unitCount ++ (Bytes.zeros 8 ++ rest))) (by simp)
  have hsize := e.word32_encode totalSize (n := 16)
    (a := [m0, m1, m2, m3, e.marker, pointers.marker, 0, 0] ++ (e.bytes32 version
      ++ e.bytes32 checksum))
    (c := e.bytes32 unitCount ++ (Bytes.zeros 8 ++ rest)) (by simp)
  have hcount := e.word32_encode unitCount (n := 20)
    (a := [m0, m1, m2, m3, e.marker, pointers.marker, 0, 0] ++ (e.bytes32 version
      ++ (e.bytes32 checksum ++ e.bytes32 totalSize)))
    (c := Bytes.zeros 8 ++ rest) (by simp)
  simp only [List.append_assoc, List.cons_append, List.nil_append] at hversion hchecksum hsize hcount
  simp only [toBytes, Vector.toList_mk, List.append_assoc, List.cons_append, List.nil_append]
  rw [ofBytes, if_neg (by simp [headerSize]; omega)]
  simp only [Endian.ofMarker?_marker, PointerEncoding.ofMarker?_marker, hversion, hchecksum, hsize,
    hcount]

/-- A unit record is read back where it stands. -/
theorem UnitRecord.ofBytes_toBytes (e : Endian) (r : UnitRecord) : ofBytes e (r.toBytes e) = r := by
  have hhandle := e.word64_encode r.fileHandle (n := 0) (a := [])
    (c := e.bytes32 r.offset ++ e.bytes32 r.size) rfl
  have hoffset := e.word32_encode r.offset (n := 8) (a := e.bytes64 r.fileHandle)
    (c := e.bytes32 r.size) (e.length_bytes64 _)
  have hsize := e.word32_encode r.size (n := 12)
    (a := e.bytes64 r.fileHandle ++ e.bytes32 r.offset) (c := []) (by simp)
  rw [List.append_nil] at hsize
  rw [← List.append_assoc] at hoffset
  rw [List.nil_append, ← List.append_assoc] at hhandle
  rw [ofBytes, toBytes, hhandle, hoffset, hsize]

theorem UnitHeader.ofBytes_toBytes (e : Endian) (h : UnitHeader) (rest : Bytes) :
    ofBytes e (h.toBytes e ++ rest) = h := by
  have hfirst := e.word32_encode h.firstPointer (n := 0) (a := [])
    (c := e.bytes32 h.pointerCount ++ (e.bytes32 h.root ++ (Bytes.zeros 4 ++ rest))) rfl
  have hcount := e.word32_encode h.pointerCount (n := 4) (a := e.bytes32 h.firstPointer)
    (c := e.bytes32 h.root ++ (Bytes.zeros 4 ++ rest)) (e.length_bytes32 _)
  have hroot := e.word32_encode h.root (n := 8)
    (a := e.bytes32 h.firstPointer ++ e.bytes32 h.pointerCount) (c := Bytes.zeros 4 ++ rest)
    (by simp)
  simp only [List.append_assoc, List.nil_append] at hfirst hcount hroot
  simp only [ofBytes, toBytes, List.append_assoc, hfirst, hcount, hroot]

/-- What passes all checks is accepted. -/
theorem Reader.ofBytes_eq_ok {b : Bytes} {header : Header} (read : Header.ofBytes b = .ok header)
    (magic : header.hasMagic = true) (version : header.hasVersion = true)
    (size : header.totalSize.toNat = b.length)
    (checksum : Checksum.crc32 (b.drop headerSize) = header.checksum)
    (records : header.recordsEnd ≤ b.length)
    (fits : ∀ i < header.unitCount.toNat, (Reader.mk b header).recordFits i = true) :
    Reader.ofBytes b = .ok ⟨b, header⟩ := by
  have hnone : (List.range header.unitCount.toNat).find?
      (fun i => ! (Reader.mk b header).recordFits i) = none := by
    refine List.find?_eq_none.mpr fun i hi => ?_
    rw [fits i (List.mem_range.mp hi)]
    decide
  unfold Reader.ofBytes
  simp only [read, Outcome.bind_eq_ok, Outcome.refuse_if_eq_ok]
  refine ⟨header, rfl, by simp [magic], by simp [version], by simp [size], by simp [checksum],
    by omega, ?_⟩
  rw [show (Reader.mk b header).unitCount = header.unitCount.toNat from rfl, hnone]
  rfl

/-- What has been accepted is the byte string with its header. -/
theorem Reader.ofBytes_bytes {b : Bytes} {r : Reader} (h : Reader.ofBytes b = .ok r) :
    r.bytes = b ∧ Header.ofBytes b = .ok r.header := by
  unfold Reader.ofBytes at h
  simp only [Outcome.bind_eq_ok, Outcome.refuse_if_eq_ok] at h
  obtain ⟨header, hheader, -, -, -, -, -, h⟩ := h
  split at h
  · cases h
  · cases h
    exact ⟨rfl, hheader⟩

end Container

end ObjectPack
