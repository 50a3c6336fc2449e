import ObjectPack.Container.Reader
import ObjectPack.Proofs.Container
import ObjectPack.Proofs.Outcome

/-!
# Joining data units

Joining sets the data units one behind another and writes header and records before them.  Each unit
stands in the container where its summary says (`Joined.unit_record`), and opening the container gives a
reader that finds all units there (`Joined.opens`).
-/

namespace ObjectPack

open Outcome

/-- Where the images stand that have been appended to a byte string. -/
structure Appended (b : Bytes) (images : List LinkedUnit) (laid : Bytes) (offsets : List Nat) :
    Prop where
  kept : ∀ i < b.length, laid[i]? = b[i]?
  grown : b.length ≤ laid.length
  count : offsets.length = images.length
  image : ∀ (i : Nat) (image : LinkedUnit), images[i]? = some image → ∃ offset, offsets[i]? = some offset ∧
    b.length ≤ offset ∧ offset + image.bytes.length ≤ laid.length ∧ laid.HasAt offset image.bytes

/-- Appending keeps what is there and sets every image behind it. -/
theorem appendImages_appended {b laid : Bytes} {images : List LinkedUnit} {offsets : List Nat}
    (h : appendImages b images = .ok (laid, offsets)) : Appended b images laid offsets := by
  induction images generalizing b offsets with
  | nil =>
    cases h
    refine ⟨fun i _ => rfl, Nat.le_refl _, rfl, ?_⟩
    intro i image himage
    cases himage
  | cons first rest ih =>
    unfold appendImages at h
    simp only [bind_eq_ok, refuse_if_eq_ok, lift_eq_ok, pure_eq_ok, Prod.exists, Prod.mk.injEq] at h
    obtain ⟨-, offset, hoffset, _, later, hrest, rfl, rfl⟩ := h
    have happended := ih hrest
    have hle := le_of_alignUp hoffset
    have hpad : (b.padTo offset).length = offset := by
      rw [Bytes.length_padTo]
      omega
    have hlength : (b.padTo offset ++ first.bytes).length = offset + first.bytes.length := by
      rw [List.length_append, hpad]
    -- An image starts behind all that has been laid, and nothing that follows reaches into it.
    have hgrown := happended.grown
    refine ⟨?_, by omega, congrArg (· + 1) happended.count, ?_⟩
    · intro i hi
      rw [happended.kept i (by omega), List.getElem?_append_left (by omega),
        Bytes.getElem?_padTo hi]
    · intro i image himage
      cases i with
      | zero =>
        cases himage
        refine ⟨offset, rfl, hle, by omega, fun j hj => ?_⟩
        rw [happended.kept _ (by omega), List.getElem?_append_right (by omega), hpad,
          Nat.add_sub_cancel_left]
      | succ i =>
        obtain ⟨offset', hoffset', hle', hstop, hat⟩ := happended.image i image himage
        exact ⟨offset', hoffset', by omega, hstop, hat⟩

/-! ### Containers -/

/-- Where the data units stand in a container, and what stands before them. -/
structure Joined (d : Draft) (images : List LinkedUnit) (packed : PackedContainer) : Prop where
  fits : packed.bytes.length < wordLimit
  records : Container.headerSize + images.length * Container.recordSize ≤ packed.bytes.length
  /-- Behind the records stands what the images were appended to. -/
  laid : ∃ laid offsets,
    appendImages (Bytes.zeros (Container.headerSize + images.length * Container.recordSize)) images
      = .ok (laid, offsets) ∧
    packed.units = ((d.units.zip images).zip offsets).map
      (fun x => x.1.2.summary x.1.1.signature x.2) ∧
    packed.bytes.length = laid.length ∧
    ∀ i, Container.headerSize + images.length * Container.recordSize ≤ i →
      packed.bytes[i]? = laid[i]?
  layout : ∃ header rest, packed.bytes = Container.Header.toBytes header ++ rest ∧
    header = { Container.Header.blank with
      endian := d.endian
      pointers := d.encoding
      checksum := Checksum.crc32 rest
      totalSize := UInt32.ofNat packed.bytes.length
      unitCount := UInt32.ofNat images.length }
  unit : ∀ (i : Nat) (image : LinkedUnit), images[i]? = some image → ∃ u, packed.units[i]? = some u ∧
    u.size = image.bytes.length ∧ Container.headerSize ≤ u.offset ∧
    u.offset + u.size ≤ packed.bytes.length ∧
    packed.bytes.HasAt u.offset image.bytes ∧
    packed.bytes.HasAt (Container.headerSize + i * Container.recordSize)
      (u.record.toBytes d.endian)

/-- What a successful joining has done. -/
theorem Draft.joinUnits_joined {d : Draft} {images : List LinkedUnit} {packed : PackedContainer}
    (count : images.length = d.units.length) (h : d.joinUnits images = .ok packed) :
    Joined d images packed := by
  unfold joinUnits at h
  simp only [bind_eq_ok, refuse_if_eq_ok, pure_eq_ok, Prod.exists] at h
  obtain ⟨laid, offsets, hlaid, hfits, rfl⟩ := h
  have happended := appendImages_appended hlaid
  have hgrown := happended.grown
  rw [Bytes.length_zeros] at hgrown
  generalize hunits : ((d.units.zip images).zip offsets).map (fun x =>
    x.1.2.summary x.1.1.signature x.2) = units
  have hcount : units.length = images.length := by
    rw [← hunits, List.length_map, List.length_zip, List.length_zip, happended.count]
    omega
  -- Every image has the summary of its data unit, at the offset where it has been laid.
  have hunit : ∀ (i : Nat) (image : LinkedUnit) (offset : Nat), images[i]? = some image →
      offsets[i]? = some offset → ∃ signature, units[i]? = some (image.summary signature offset) := by
    intro i image offset himage hoffset
    have hi : i < d.units.length := count ▸ (List.getElem?_eq_some_iff.mp himage).1
    have hpair : ((d.units.zip images).zip offsets)[i]? = some ((d.units[i], image), offset) :=
      List.getElem?_zip_eq_some.mpr
        ⟨List.getElem?_zip_eq_some.mpr ⟨List.getElem?_eq_getElem hi, himage⟩, hoffset⟩
    refine ⟨d.units[i].signature, ?_⟩
    rw [← hunits, List.getElem?_map, hpair]
    rfl
  rw [hcount]
  -- Header and records take the place of zeros that have been left in front of the images.
  have hrecord := fun (u : UnitSummary) => Container.UnitRecord.length_toBytes d.endian u.record
  have hrecords : (units.flatMap fun u => u.record.toBytes d.endian).length
      = images.length * Container.recordSize := by
    rw [List.length_flatMap, ← hcount]
    simp
  generalize hheader : Container.Header.toBytes _ = header
  have hheaderLength : header.length = Container.headerSize :=
    hheader ▸ Container.Header.length_toBytes _
  have hfront : (header ++ (units.flatMap fun u => u.record.toBytes d.endian)).length
      = Container.headerSize + images.length * Container.recordSize := by
    rw [List.length_append, hheaderLength, hrecords]
  have hlength : (header ++ ((units.flatMap fun u => u.record.toBytes d.endian)
      ++ laid.drop (Container.headerSize + images.length * Container.recordSize))).length
        = laid.length := by
    rw [← List.append_assoc, List.length_append, hfront, List.length_drop]
    omega
  have htail : ∀ i, Container.headerSize + images.length * Container.recordSize ≤ i →
      (header ++ ((units.flatMap fun u => u.record.toBytes d.endian)
        ++ laid.drop (Container.headerSize + images.length * Container.recordSize)))[i]?
        = laid[i]? := by
    intro i hi
    rw [← List.append_assoc, List.getElem?_append_right (by omega), hfront, List.getElem?_drop,
      Nat.add_sub_cancel' (by omega)]
  refine
    { fits := by
        rw [hlength]
        omega
      records := by
        rw [hlength]
        exact hgrown
      laid := ⟨laid, offsets, hlaid, hunits.symm, hlength, htail⟩
      layout := ⟨_, _, congrArg (· ++ _) hheader.symm, by rw [hlength]⟩
      unit := ?_ }
  intro i image himage
  obtain ⟨offset, hoffset, hle, hstop, hat⟩ := happended.image i image himage
  obtain ⟨signature, hsummary⟩ := hunit i image offset himage hoffset
  rw [Bytes.length_zeros] at hle
  refine ⟨_, hsummary, rfl, Nat.le_trans (Nat.le_add_right _ _) hle, ?_, ?_, ?_⟩
  · rw [hlength]
    exact hstop
  · intro j hj
    exact (htail (offset + j) (by omega)).trans (hat j hj)
  · intro j hj
    rw [List.getElem?_append_right (by omega), hheaderLength,
      show Container.headerSize + i * Container.recordSize + j - Container.headerSize
        = i * Container.recordSize + j by omega]
    -- The record stands inside the table of records, so the images behind do not matter.
    have hi := (List.getElem?_eq_some_iff.mp himage).1
    rw [hrecord] at hj
    have hinside : i * Container.recordSize + j < images.length * Container.recordSize :=
      calc
        _ < i * Container.recordSize + Container.recordSize := Nat.add_lt_add_left hj _
        _ = (i + 1) * Container.recordSize := (Nat.succ_mul ..).symm
        _ ≤ images.length * Container.recordSize := Nat.mul_le_mul_right _ hi
    rw [List.getElem?_append_left (hrecords ▸ hinside)]
    exact flatMap_hasAt hrecord hsummary j (hrecord _ ▸ hj)

/-! ### Opening what has been joined -/

namespace Joined

variable {d : Draft} {images : List LinkedUnit} {packed : PackedContainer}

/-- The header of a container that has been joined agrees with it. -/
theorem exists_header (h : Joined d images packed) :
    ∃ header, Container.Header.ofBytes packed.bytes = .ok header ∧ header.hasMagic = true ∧
      header.hasVersion = true ∧ header.totalSize.toNat = packed.bytes.length ∧
      Checksum.crc32 (packed.bytes.drop Container.headerSize) = header.checksum ∧
      header.unitCount.toNat = images.length ∧ header.endian = d.endian ∧
      header.pointers = d.encoding := by
  obtain ⟨header, rest, hbytes, hheader⟩ := h.layout
  have hfits := h.fits
  have hrecords := h.records
  have hrest : packed.bytes.drop Container.headerSize = rest := by
    rw [hbytes, ← header.length_toBytes, List.drop_left]
  refine ⟨header, hbytes ▸ header.ofBytes_toBytes rest, ?_⟩
  rw [hrest, hheader]
  refine ⟨rfl, rfl, ?_, rfl, ?_, rfl, rfl⟩
  · exact UInt32.toNat_ofNat_of_lt' hfits
  · refine UInt32.toNat_ofNat_of_lt' (Nat.lt_of_le_of_lt ?_ hfits)
    unfold Container.headerSize Container.recordSize at hrecords
    omega

/-- The record of a data unit says where the unit stands. -/
theorem unit_record (h : Joined d images packed) {header : Container.Header}
    (endian : header.endian = d.endian) {i : Nat} {image : LinkedUnit}
    (himage : images[i]? = some image) :
    ∃ record, (Container.Reader.mk packed.bytes header).record i = record ∧
      record.size.toNat = image.bytes.length ∧
      record.offset.toNat + record.size.toNat ≤ packed.bytes.length ∧
      packed.bytes.HasAt record.offset.toNat image.bytes := by
  obtain ⟨u, -, hsize, -, hstop, hat, hrecord⟩ := h.unit i image himage
  have hfits := h.fits
  have hslice := hrecord.slice
  rw [Container.UnitRecord.length_toBytes] at hslice
  have hoffset : u.record.offset.toNat = u.offset :=
    UInt32.toNat_ofNat_of_lt' (show u.offset < wordLimit by omega)
  have husize : u.record.size.toNat = u.size :=
    UInt32.toNat_ofNat_of_lt' (show u.size < wordLimit by omega)
  refine ⟨u.record, ?_, husize.trans hsize, ?_, hoffset ▸ hat⟩
  · show Container.UnitRecord.ofBytes header.endian _ = _
    rw [endian, hslice, Container.UnitRecord.ofBytes_toBytes]
  · rw [hoffset, husize]
    exact hstop

/-- No data unit takes all of the range of offsets. -/
theorem length_lt (h : Joined d images packed) {i : Nat} {image : LinkedUnit}
    (himage : images[i]? = some image) : Container.headerSize + image.bytes.length < wordLimit := by
  obtain ⟨u, -, hsize, hoffset, hstop, -⟩ := h.unit i image himage
  have hfits := h.fits
  omega

/-- What has been joined can be opened, and every data unit is found in it. -/
theorem opens (h : Joined d images packed)
    (sizes : ∀ image ∈ images, Container.unitHeaderSize ≤ image.bytes.length) :
    ∃ r, Container.Reader.ofBytes packed.bytes = .ok r ∧ r.unitCount = images.length ∧
      ∀ (i : Nat) (image : LinkedUnit), images[i]? = some image → ∃ record, r.unit? i
        = some ⟨image.bytes, record, .ofBytes d.endian image.bytes, d.endian, d.encoding⟩ := by
  obtain ⟨header, hread, hmagic, hversion, hsize, hchecksum, hcount, hendian, hpointers⟩ :=
    h.exists_header
  have hrecords : header.recordsEnd ≤ packed.bytes.length := by
    rw [Container.Header.recordsEnd, hcount]
    exact h.records
  refine ⟨_, Container.Reader.ofBytes_eq_ok hread hmagic hversion hsize hchecksum hrecords ?_, hcount, ?_⟩
  · intro i hi
    rw [hcount] at hi
    obtain ⟨record, hrecord, himage, hstop, -⟩ :=
      h.unit_record hendian (List.getElem?_eq_getElem hi)
    have hunit := sizes _ (List.getElem_mem hi)
    rw [Container.Reader.recordFits, hrecord, Bool.and_eq_true, decide_eq_true_iff,
      decide_eq_true_iff]
    exact ⟨hstop, himage ▸ hunit⟩
  · intro i image himage
    obtain ⟨record, hrecord, hlength, -, hat⟩ := h.unit_record hendian himage
    have hslice := hat.slice
    have hi : i < header.unitCount.toNat :=
      hcount.symm ▸ (List.getElem?_eq_some_iff.mp himage).1
    refine ⟨record, ?_⟩
    unfold Container.Reader.unit?
    rw [if_pos (show i < (Container.Reader.mk packed.bytes header).unitCount from hi)]
    simp only [hrecord, hlength, hslice, Container.Reader.endian, hendian, hpointers]

end Joined

end ObjectPack
