import ObjectPack.Proofs.Container.Access

/-!
# Writing and reading undo each other

Every fixed part of a container has one form in bytes.  What is written is read back whatever follows it,
and what is read is written as it stood, except that reserved bytes become zero (`Inverse`).  This holds of
the header, whose byte order stands in one of its own bytes, and in both byte orders of unit records and
unit headers; under all of them lie the scalars, for which it holds in every format
(`codecs_inverse`).

A word that is read is written as the bytes that stand at its place (`Endian.bytes32_word32`).  Words next
to each other give the range that they make up, so what is written is the range of all fields
(`List.take_add`).
-/

namespace ObjectPack

/-! ### Words written as they stood -/

namespace Endian

variable {b : Bytes} {start : Nat}

theorem encode_decode_of_length (e : Endian) {w : Bytes} {width : Nat} (h : w.length = width) :
    e.encode width (e.decode w) = w := by
  rw [← h]
  exact e.encode_decode w

theorem bytes32_word32 (e : Endian) (inside : start + 4 ≤ b.length) :
    e.bytes32 (e.word32 b start) = (b.drop start).take 4 := by
  have hlength : ((b.drop start).take 4).length = 4 := by
    rw [List.length_take, List.length_drop]
    omega
  have hsmall : e.decode ((b.drop start).take 4) < 2 ^ 32 := by
    have hlt := e.decode_lt ((b.drop start).take 4)
    rwa [hlength] at hlt
  rw [word32, bytes32, UInt32.toNat_ofNat_of_lt' hsmall, e.encode_decode_of_length hlength]

theorem bytes64_word64 (e : Endian) (inside : start + 8 ≤ b.length) :
    e.bytes64 (e.word64 b start) = (b.drop start).take 8 := by
  have hlength : ((b.drop start).take 8).length = 8 := by
    rw [List.length_take, List.length_drop]
    omega
  have hsmall : e.decode ((b.drop start).take 8) < 2 ^ 64 := by
    have hlt := e.decode_lt ((b.drop start).take 8)
    rwa [hlength] at hlt
  rw [word64, bytes64, UInt64.toNat_ofNat_of_lt' hsmall, e.encode_decode_of_length hlength]

end Endian

/-- Every byte string of the width of a format stands for a scalar, which is written as these bytes. -/
theorem Scalar.exists_decode? (e : Endian) (f : Format) {b : Bytes} (h : b.length = f.width) :
    ∃ s, decode? e f b = some s ∧ s.format = f ∧ s.encode e = b := by
  have hdecode : decode? e f b = some (ofBits f (e.decode (b.take f.width))) := if_pos (Nat.le_of_eq h.symm)
  refine ⟨_, hdecode, format_ofBits .., ?_⟩
  rw [encode_of_decode? hdecode, List.take_of_length_le (Nat.le_of_eq h)]

/-! ### Markers -/

theorem Endian.marker_of_ofMarker? {m : UInt8} {e : Endian} (h : ofMarker? m = some e) : e.marker = m := by
  grind [ofMarker?, marker]

theorem PointerEncoding.marker_of_ofMarker? {m : UInt8} {p : PointerEncoding} (h : ofMarker? m = some p) :
    p.marker = m := by
  grind [ofMarker?, marker]

/-! ### Records with reserved bytes -/

/-- `b` with zeros in some ranges, each given by its start and its length. -/
def Bytes.cleared (b : Bytes) (ranges : List (Nat × Nat)) : Bytes :=
  ranges.foldl (fun b range => b.overwrite range.1 (zeros range.2)) b

theorem Bytes.overwrite_append {a c d z : Bytes} {n : Nat} (h : a.length = n) (hz : c.length = z.length) :
    (a ++ (c ++ d)).overwrite n z = a ++ (z ++ d) := by
  subst h
  rw [overwrite, List.take_left, ← hz, ← List.drop_drop, List.drop_left, List.drop_left]

namespace Container

/-- Whether writing and reading undo each other: what is written has a fixed size and is read back
whatever follows it, and what is read is written as it stood with zeros in the reserved ranges. -/
structure Inverse {ε α : Type} (size : Nat) (reserved : List (Nat × Nat)) (write : α → Bytes)
    (read : Bytes → Except ε α) : Prop where
  length : ∀ a, (write a).length = size
  back : ∀ a rest, read (write a ++ rest) = .ok a
  forth : ∀ b a, size ≤ b.length → read b = .ok a → write a = Bytes.cleared (b.take size) reserved

theorem UnitRecord.inverse (e : Endian) :
    Inverse recordSize [] (UnitRecord.toBytes e) (UnitRecord.read e) where
  length := UnitRecord.length_toBytes e
  back r rest := by
    have hhandle := e.word64_encode r.fileHandle (n := 0) (a := [])
      (c := e.bytes32 r.offset ++ (e.bytes32 r.size ++ rest)) rfl
    have hoffset := e.word32_encode r.offset (n := 8) (a := e.bytes64 r.fileHandle)
      (c := e.bytes32 r.size ++ rest) (e.length_bytes64 _)
    have hsize := e.word32_encode r.size (n := 12) (a := e.bytes64 r.fileHandle ++ e.bytes32 r.offset)
      (c := rest) (by simp)
    simp only [List.append_assoc, List.nil_append] at hhandle hoffset hsize
    rw [read, if_neg (by simp), ofBytes]
    simp only [toBytes, List.append_assoc, hhandle, hoffset, hsize]
  forth b r hlength h := by
    have hlong : 16 ≤ b.length := hlength
    rw [read, if_neg (Nat.not_lt.mpr hlength)] at h
    obtain rfl := Except.ok.inj h
    calc toBytes e (ofBytes e b)
        = b.take 8 ++ (b.drop 8).take 4 ++ (b.drop 12).take 4 := by
          simp only [toBytes, ofBytes]
          rw [e.bytes64_word64 (by omega), e.bytes32_word32 (by omega), e.bytes32_word32 (by omega),
            List.drop_zero]
      _ = b.take 16 := by rw [← List.take_add, ← List.take_add]

/-- Sixteen bytes are always a record. -/
theorem UnitRecord.exists_read (e : Endian) {b : Bytes} (h : recordSize ≤ b.length) :
    ∃ r, read e b = .ok r :=
  ⟨ofBytes e b, if_neg (Nat.not_lt.mpr h)⟩

theorem UnitHeader.inverse (e : Endian) :
    Inverse unitHeaderSize [(12, 4)] (UnitHeader.toBytes e) (UnitHeader.read e) where
  length := UnitHeader.length_toBytes e
  back h rest := by
    rw [read, if_neg (by simp [unitHeaderSize]; omega), UnitHeader.ofBytes_toBytes]
  forth b h hlength hread := by
    have hlong : 16 ≤ b.length := hlength
    rw [read, if_neg (by omega)] at hread
    obtain rfl := Except.ok.inj hread
    calc toBytes e (ofBytes e b)
        = b.take 4 ++ (b.drop 4).take 4 ++ (b.drop 8).take 4 ++ Bytes.zeros 4 := by
          simp only [toBytes, ofBytes]
          rw [e.bytes32_word32 (by omega), e.bytes32_word32 (by omega), e.bytes32_word32 (by omega),
            List.drop_zero]
      _ = b.take 12 ++ (Bytes.zeros 4 ++ []) := by rw [← List.take_add, ← List.take_add, List.append_nil]
      _ = Bytes.cleared (b.take 12 ++ ((b.drop 12).take 4 ++ [])) [(12, 4)] :=
          (Bytes.overwrite_append (by rw [List.length_take]; omega)
            (by rw [Bytes.length_zeros, List.length_take, List.length_drop]; omega)).symm
      _ = Bytes.cleared (b.take unitHeaderSize) [(12, 4)] := by rw [List.append_nil, ← List.take_add]; rfl

/-- Sixteen bytes are always a unit header. -/
theorem UnitHeader.exists_read (e : Endian) {b : Bytes} (h : unitHeaderSize ≤ b.length) :
    ∃ header, read e b = .ok header := by
  have hlong : 16 ≤ b.length := h
  exact ⟨ofBytes e b, if_neg (by omega)⟩

/-! ### The header -/

/-- What reading a header finds: magic and markers in its first six bytes, and four words from byte 8 on. -/
theorem Header.ofBytes_eq_ok {b : Bytes} {h : Header} (hread : ofBytes b = .ok h) :
    b.take 6 = h.magic.toList ++ [h.endian.marker, h.pointers.marker] ∧
      h.version = h.endian.word32 b 8 ∧ h.checksum = h.endian.word32 b 12 ∧
      h.totalSize = h.endian.word32 b 16 ∧ h.unitCount = h.endian.word32 b 20 := by
  unfold ofBytes at hread
  split at hread
  · split at hread
    · cases hread
    · split at hread
      · cases hread
      · rename_i e horder
        split at hread
        · cases hread
        · rename_i pointers hmode
          obtain rfl := Except.ok.inj hread
          rw [Endian.marker_of_ofMarker? horder, PointerEncoding.marker_of_ofMarker? hmode]
          exact ⟨rfl, rfl, rfl, rfl, rfl⟩
  · cases hread

theorem Header.load_eq_ok {b : Bytes} {h : Header} : load b = .ok h ↔ ofBytes b = .ok h := by
  rw [load_eq]
  cases ofBytes b <;> simp [Except.mapError]

/-- The first bytes of a header without what is reserved. -/
theorem Header.cleared_eq {b : Bytes} (h : 32 ≤ b.length) : Bytes.cleared (b.take 32) [(6, 2), (24, 8)] =
    b.take 6 ++ Bytes.zeros 2 ++ (b.drop 8).take 16 ++ Bytes.zeros 8 := by
  have hlengths (start n : Nat) (inside : start + n ≤ 32) : ((b.drop start).take n).length = n := by
    rw [List.length_take, List.length_drop]
    omega
  have hpieces : b.take 32 = b.take 6 ++ ((b.drop 6).take 2
      ++ ((b.drop 8).take 16 ++ ((b.drop 24).take 8 ++ []))) := by
    rw [show 32 = 6 + 2 + 16 + 8 from rfl]
    simp only [List.take_add, List.append_assoc, List.append_nil]
  have hbehind : (b.take 6 ++ (Bytes.zeros 2 ++ (b.drop 8).take 16)).length = 24 := by
    rw [List.length_append, List.length_append, List.length_take, Bytes.length_zeros, hlengths 8 16 (by decide)]
    omega
  calc Bytes.cleared (b.take 32) [(6, 2), (24, 8)]
      = Bytes.overwrite ((b.take 6 ++ (Bytes.zeros 2 ++ (b.drop 8).take 16)) ++ ((b.drop 24).take 8 ++ [])) 24
          (Bytes.zeros 8) := by
        rw [hpieces, Bytes.cleared, List.foldl_cons, Bytes.overwrite_append (by rw [List.length_take]; omega)
          (by rw [hlengths 6 2 (by decide), Bytes.length_zeros])]
        simp only [List.append_assoc]
        rfl
    _ = b.take 6 ++ Bytes.zeros 2 ++ (b.drop 8).take 16 ++ Bytes.zeros 8 := by
        rw [Bytes.overwrite_append hbehind (by rw [hlengths 24 8 (by decide), Bytes.length_zeros])]
        simp only [List.append_assoc, List.append_nil]

theorem Header.inverse : Inverse headerSize [(6, 2), (24, 8)] Header.toBytes Header.load where
  length := Header.length_toBytes
  back h rest := load_eq_ok.mpr (ofBytes_toBytes h rest)
  forth b h hlength hload := by
    have hlong : 32 ≤ b.length := hlength
    obtain ⟨hfirst, hversion, hchecksum, hsize, hcount⟩ := ofBytes_eq_ok (load_eq_ok.mp hload)
    have hwords : h.endian.bytes32 h.version ++ h.endian.bytes32 h.checksum ++ h.endian.bytes32 h.totalSize
        ++ h.endian.bytes32 h.unitCount = (b.drop 8).take (4 + 4 + 4 + 4) := by
      rw [hversion, hchecksum, hsize, hcount, h.endian.bytes32_word32 (by omega),
        h.endian.bytes32_word32 (by omega), h.endian.bytes32_word32 (by omega),
        h.endian.bytes32_word32 (by omega)]
      simp only [List.take_add, List.drop_drop]
    rw [headerSize, cleared_eq hlong, hfirst, ← hwords]
    simp only [toBytes, List.append_assoc]
    rfl

/-- Reading a header succeeds on whole headers only. -/
theorem Header.le_length_of_load {b : Bytes} {h : Header} (hload : load b = .ok h) :
    headerSize ≤ b.length := le_length (load_eq_ok.mp hload)

/-! ### The whole format -/

/-- Writing and reading undo each other for headers, in each byte order for unit records and unit headers,
and for scalars of every format: what is written is read back whatever follows it; of what is read, and
every byte string of the size of a record or of a scalar can be read, all but the reserved bytes is written
as it stood. -/
theorem codecs_inverse :
    (Inverse headerSize [(6, 2), (24, 8)] Header.toBytes Header.load ∧
      ∀ b h, Header.load b = .ok h → headerSize ≤ b.length) ∧
    ∀ e : Endian,
      (Inverse recordSize [] (UnitRecord.toBytes e) (UnitRecord.read e) ∧
        ∀ b : Bytes, b.length = recordSize → ∃ r, UnitRecord.read e b = .ok r) ∧
      (Inverse unitHeaderSize [(12, 4)] (UnitHeader.toBytes e) (UnitHeader.read e) ∧
        ∀ b : Bytes, b.length = unitHeaderSize → ∃ h, UnitHeader.read e b = .ok h) ∧
      (∀ (s : Scalar) (rest : Bytes), Scalar.decode? e s.format (s.encode e ++ rest) = some s) ∧
      ∀ (f : Scalar.Format) (b : Bytes), b.length = f.width →
        ∃ s, Scalar.decode? e f b = some s ∧ s.format = f ∧ s.encode e = b :=
  ⟨⟨Header.inverse, fun _ _ => Header.le_length_of_load⟩, fun e =>
    ⟨⟨UnitRecord.inverse e, fun _ h => UnitRecord.exists_read e (Nat.le_of_eq h.symm)⟩,
      ⟨UnitHeader.inverse e, fun _ h => UnitHeader.exists_read e (Nat.le_of_eq h.symm)⟩,
      Scalar.decode?_encode e, fun f _ h => Scalar.exists_decode? e f h⟩⟩

/-- A big-endian header with something in each reserved byte, and one byte behind it. -/
def filledHeader : Bytes :=
  magic ++ [1, 2, 0xaa, 0xbb] ++ [0, 0, 0, 1] ++ [0xde, 0xad, 0xbe, 0xef] ++ [0, 0, 1, 0x20] ++ [0, 0, 0, 3]
    ++ [1, 2, 3, 4, 5, 6, 7, 8] ++ [0xff]

/-- The header is read in the order that it names and written back without what was reserved. -/
theorem codecs_inverse_filledHeader : ∃ h, Header.load filledHeader = .ok h ∧ h.endian = .big ∧
    h.totalSize = 288 ∧ h.toBytes = magic ++ [1, 2, 0, 0] ++ [0, 0, 0, 1] ++ [0xde, 0xad, 0xbe, 0xef]
      ++ [0, 0, 1, 0x20] ++ [0, 0, 0, 3] ++ [0, 0, 0, 0, 0, 0, 0, 0] := by
  have hload : Header.load filledHeader = .ok ⟨#v[0x47, 0x44, 0x41, 0x54], .big, .relative, 1, 0xdeadbeef, 288, 3⟩ :=
    by decide +kernel
  refine ⟨_, hload, rfl, rfl, ?_⟩
  rw [codecs_inverse.1.1.forth filledHeader _ (by decide) hload]
  decide +kernel

end Container

end ObjectPack
