import ObjectPack.Proofs.Link.Read

/-!
# The layout of containers

Appending sets images behind each other, each at its alignment, and leaves zeros between them
(`Stacked`); placing does the same with the blocks of a data unit.  Both together give the layout of
every container that linking makes (`Draft.link_wellLaid`): it opens, its records say where its data
units stand, nothing overlaps, everything is aligned, and what belongs to no part is zero.
-/

namespace ObjectPack

open Outcome Placement

/-! ### Images behind each other -/

/-- How images stand to each other that have been appended to a byte string. -/
structure Stacked (b : Bytes) (images : List LinkedUnit) (laid : Bytes) (offsets : List Nat) :
    Prop where
  aligned : ∀ x ∈ images.zip offsets, x.1.alignment ∣ x.2
  apart : (images.zip offsets).Pairwise fun x y => x.2 + x.1.bytes.length ≤ y.2
  behind : ∀ x ∈ images.zip offsets, b.length ≤ x.2
  padding : ∀ i, b.length ≤ i → i < laid.length →
    (∀ x ∈ images.zip offsets, i < x.2 ∨ x.2 + x.1.bytes.length ≤ i) → laid[i]? = some 0

theorem appendImages_stacked {b laid : Bytes} {images : List LinkedUnit} {offsets : List Nat}
    (powers : ∀ image ∈ images, isPowerOfTwo image.alignment = true)
    (h : appendImages b images = .ok (laid, offsets)) : Stacked b images laid offsets := by
  induction images generalizing b offsets with
  | nil =>
    cases h
    refine ⟨fun x hx => ?_, List.Pairwise.nil, fun x hx => ?_, fun i hi hi' => ?_⟩
    · cases hx
    · cases hx
    · omega
  | cons first rest ih =>
    unfold appendImages at h
    simp only [bind_eq_ok, refuse_if_eq_ok, lift_eq_ok, pure_eq_ok, Prod.exists, Prod.mk.injEq] at h
    obtain ⟨-, offset, hoffset, _, later, hrest, rfl, rfl⟩ := h
    -- The later images leave what has been laid so far as it is.
    have hkept := (appendImages_appended hrest).kept
    have hstacked := ih (fun image himage => powers image (List.mem_cons_of_mem _ himage)) hrest
    obtain ⟨hdvd, hle, -⟩ := alignUp_spec (powers first List.mem_cons_self) hoffset
    have hpad : (b.padTo offset).length = offset := by
      rw [Bytes.length_padTo]
      omega
    have hlength : (b.padTo offset ++ first.bytes).length = offset + first.bytes.length := by
      rw [List.length_append, hpad]
    have hbehind := hstacked.behind
    rw [hlength] at hbehind
    refine
      { aligned := List.forall_mem_cons.mpr ⟨hdvd, hstacked.aligned⟩
        apart := List.pairwise_cons.mpr ⟨hbehind, hstacked.apart⟩
        behind := ?_
        padding := ?_ }
    · exact List.forall_mem_cons.mpr ⟨hle, fun x hx => Nat.le_trans (by omega) (hbehind x hx)⟩
    · intro i low high between
      obtain ⟨hfirst, hothers⟩ := List.forall_mem_cons.mp between
      rcases hfirst with hbefore | hafter
      · rw [hkept i (by omega), List.getElem?_append_left (by omega),
          Bytes.getElem?_padTo_zero low hbefore]
      · refine hstacked.padding i ?_ high hothers
        rw [hlength]
        exact hafter

/-! ### What linking tells of a data unit -/

/-- The alignment and the counts of a linked unit. -/
theorem LinkedUnit.ofSections_counts {e : Endian} {unit : Nat} {root : Option Reference}
    {sections : List Section} {image : LinkedUnit}
    (h : ofSections e unit root sections = .ok image) :
    image.alignment = (Section.merge e sections).1.foldl (fun a s => max a s.alignment)
        Container.unitAlignment ∧
      image.blocks = (Section.merge e sections).1.length ∧
      image.merged = sections.length - (Section.merge e sections).1.length := by
  unfold ofSections at h
  simp only [bind_eq_ok, mapError_eq_ok, Prod.exists] at h
  obtain ⟨placements, last, -, found, -, slots, -, h⟩ := h
  cases root with
  | none =>
    cases h
    exact ⟨rfl, rfl, rfl⟩
  | some reference =>
    simp only [bind_eq_ok, lift_eq_ok, pure_eq_ok] at h
    obtain ⟨place, -, _, -, rfl⟩ := h
    exact ⟨rfl, rfl, rfl⟩

/-- The greatest of some powers of two is a multiple of all of them. -/
theorem foldl_max_alignment {sections : List Section} {start : Nat}
    (power : isPowerOfTwo start = true)
    (powers : ∀ s ∈ sections, isPowerOfTwo s.alignment = true) :
    let greatest := sections.foldl (fun a s => max a s.alignment) start
    isPowerOfTwo greatest = true ∧ start ∣ greatest ∧ ∀ s ∈ sections, s.alignment ∣ greatest := by
  induction sections generalizing start with
  | nil => exact ⟨power, Nat.dvd_refl _, fun s hs => absurd hs List.not_mem_nil⟩
  | cons s rest ih =>
    obtain ⟨hs, hrest⟩ := List.forall_mem_cons.mp powers
    have hmax : isPowerOfTwo (max start s.alignment) = true := by
      rcases Nat.le_total start s.alignment with hle | hle
      · rwa [Nat.max_eq_right hle]
      · rwa [Nat.max_eq_left hle]
    obtain ⟨hpower, hstart, hothers⟩ := ih hmax hrest
    refine ⟨hpower, ?_, List.forall_mem_cons.mpr ⟨?_, hothers⟩⟩
    · exact Nat.dvd_trans (dvd_of_isPowerOfTwo power hmax (Nat.le_max_left _ _)) hstart
    · exact Nat.dvd_trans (dvd_of_isPowerOfTwo hs hmax (Nat.le_max_right _ _)) hstart

/-- Behind its header a linked unit is zero where no placed section stands. -/
theorem Linkage.padding {e : Endian} {root : Option Reference} {kept : List Section}
    {aliases : Aliases} {image : LinkedUnit} {placements : List Placement} {last : Nat}
    {slots : List (Nat × Bytes)}
    (h : Linkage e root kept aliases image placements last slots)
    (coherent : Section.Coherent kept) {i : Nat} (low : Container.unitHeaderSize ≤ i)
    (high : i < image.bytes.length) (between : ∀ p ∈ placements, i < p.start ∨ p.stop ≤ i) :
    image.bytes[i]? = some 0 := by
  rw [h.length_bytes coherent] at high
  rw [h.bytes, getElem?_patchAll (h.slots_inside coherent)]
  · exact getElem?_fill_zero h.laid (Container.UnitHeader.length_toBytes e _) low high between
  · intro slot hslot
    obtain ⟨hlength, p, hp, site, hsite, hposition⟩ := h.site_of_slot coherent hslot
    have hinside := h.slot_inside coherent hp hsite
    have houtside := between p hp
    omega

/-! ### Containers -/

variable {d : Draft} {images : List LinkedUnit} {packed : PackedContainer}

/-- How the data units of a container stand to each other. -/
structure UnitsStacked (d : Draft) (images : List LinkedUnit) (packed : PackedContainer) :
    Prop where
  order : packed.units.map (·.signature) = d.units.map (·.signature)
  part : ∀ (unit : Nat) (u : UnitSummary), packed.units[unit]? = some u →
    ∃ du image, d.units[unit]? = some du ∧ images[unit]? = some image ∧
      u = image.summary du.signature u.offset ∧ image.alignment ∣ u.offset ∧
      Container.headerSize + images.length * Container.recordSize ≤ u.offset
  apart : packed.units.Pairwise fun u v => u.offset + u.size ≤ v.offset
  padding : ∀ i < packed.bytes.length,
    Container.headerSize + images.length * Container.recordSize ≤ i →
    (∀ u ∈ packed.units, i < u.offset ∨ u.offset + u.size ≤ i) → packed.bytes[i]? = some 0

/-- The data units of a container come in the order of their registration. -/
theorem Joined.order (h : Joined d images packed) (count : images.length = d.units.length) :
    packed.units.map (·.signature) = d.units.map (·.signature) := by
  obtain ⟨laid, offsets, happend, hunits, -⟩ := h.laid
  have hcount := (appendImages_appended happend).count
  calc
    _ = ((((d.units.zip images).zip offsets).map Prod.fst).map Prod.fst).map (·.signature) := by
      rw [hunits, List.map_map, List.map_map, List.map_map]
      rfl
    _ = d.units.map (·.signature) := by
      rw [List.map_fst_zip (by rw [List.length_zip, hcount]; omega),
        List.map_fst_zip (Nat.le_of_eq count.symm)]

theorem Joined.unitsStacked (h : Joined d images packed) (count : images.length = d.units.length)
    (powers : ∀ image ∈ images, isPowerOfTwo image.alignment = true) :
    UnitsStacked d images packed := by
  obtain ⟨laid, offsets, happend, hunits, hlength, htail⟩ := h.laid
  have hcount := (appendImages_appended happend).count
  have hstacked := appendImages_stacked powers happend
  have hbehind := hstacked.behind
  rw [Bytes.length_zeros] at hbehind
  -- The records tell the extents of the images, in their order.
  have himages : ((d.units.zip images).zip offsets).map (fun x => (x.1.2, x.2))
      = images.zip offsets := by
    calc
      _ = ((d.units.zip images).map Prod.snd).zip offsets := (List.zip_map_left ..).symm
      _ = images.zip offsets := by rw [List.map_snd_zip (Nat.le_of_eq count)]
  have hextents : packed.units.map (fun u => (u.offset, u.size))
      = (images.zip offsets).map fun x => (x.2, x.1.bytes.length) := by
    rw [hunits, ← himages, List.map_map, List.map_map]
    rfl
  exact
    { order := by
        exact h.order count
      part := by
        intro unit u hu
        rw [hunits, List.getElem?_map, Option.map_eq_some_iff] at hu
        obtain ⟨⟨⟨du, image⟩, offset⟩, hzip, rfl⟩ := hu
        obtain ⟨hpair, hoffset⟩ := List.getElem?_zip_eq_some.mp hzip
        obtain ⟨hdu, himage⟩ := List.getElem?_zip_eq_some.mp hpair
        have hmem : (image, offset) ∈ images.zip offsets :=
          List.mem_of_getElem? (List.getElem?_zip_eq_some.mpr ⟨himage, hoffset⟩)
        exact ⟨du, image, hdu, himage, rfl, hstacked.aligned _ hmem, hbehind _ hmem⟩
      apart := by
        have hapart : ((images.zip offsets).map fun x => (x.2, x.1.bytes.length)).Pairwise
            fun x y => x.1 + x.2 ≤ y.1 := List.pairwise_map.mpr hstacked.apart
        rw [← hextents] at hapart
        exact List.pairwise_map.mp hapart
      padding := by
        intro i hi low between
        have hall : ∀ x ∈ packed.units.map (fun u => (u.offset, u.size)), i < x.1 ∨ x.1 + x.2 ≤ i :=
          List.forall_mem_map.mpr between
        rw [hextents] at hall
        rw [htail i low]
        exact hstacked.padding i (by rwa [Bytes.length_zeros]) (hlength ▸ hi)
          (List.forall_mem_map.mp hall) }

/-- Every data unit stands in the container at its offset. -/
theorem Joined.unit_stands (h : Joined d images packed) {unit : Nat} {image : LinkedUnit} {u : UnitSummary}
    (himage : images[unit]? = some image) (hu : packed.units[unit]? = some u) :
    u.size = image.bytes.length ∧ u.offset + u.size ≤ packed.bytes.length ∧
      packed.bytes.HasAt u.offset image.bytes := by
  obtain ⟨u', hu', hsize, -, hstop, hstands, -⟩ := h.unit unit image himage
  obtain rfl := Option.some.inj (hu.symm.trans hu')
  exact ⟨hsize, hstop, hstands⟩

/-- A reader finds the record of every data unit. -/
theorem Joined.record_eq (h : Joined d images packed) {r : Container.Reader}
    (hr : Container.Reader.ofBytes packed.bytes = .ok r) {unit : Nat} {u : UnitSummary}
    (hunit : unit < images.length) (hu : packed.units[unit]? = some u) :
    r.record unit = u.record := by
  obtain ⟨hbytes, hheader⟩ := Container.Reader.ofBytes_bytes hr
  obtain ⟨header, hread, -, -, -, -, -, hendian, -⟩ := h.exists_header
  rw [hread] at hheader
  obtain rfl : header = r.header := Except.ok.inj hheader
  obtain ⟨u', hu', -, -, -, -, hrecord⟩ := h.unit unit _ (List.getElem?_eq_getElem hunit)
  rw [hu] at hu'
  cases hu'
  have hslice := hrecord.slice
  rw [Container.UnitRecord.length_toBytes] at hslice
  rw [Container.Reader.record, Container.Reader.endian, hendian, hbytes, hslice,
    Container.UnitRecord.ofBytes_toBytes]

namespace Draft

/-- How a data unit of a draft stands in a container, and what the container reports of it. -/
structure UnitLaid (d : Draft) (unit : Nat) (u : UnitSummary) : Prop where
  aligned : Container.unitAlignment ∣ u.offset
  blocksAligned : ∀ s ∈ d.survivors unit, s.alignment ∣ u.offset
  behindHeader : ∀ s ∈ d.survivors unit, Container.unitHeaderSize ≤ d.placeIn unit s.reference
  inside : ∀ s ∈ d.survivors unit, d.placeIn unit s.reference + s.content.length ≤ u.size
  /-- Each block stands behind those that were registered before it. -/
  apart : (d.survivors unit).Pairwise fun s t =>
    d.placeIn unit s.reference + s.content.length ≤ d.placeIn unit t.reference
  size : Container.unitHeaderSize ≤ u.size
  blocks : u.blocks = (d.survivors unit).length
  merged : u.blocks + u.merged = d.blocks.countP fun block => block.body.any (·.unit = unit)

/-- Whether a position of a container belongs to its header, to its records, or to the header or a
block of one of its data units. -/
def Occupied (d : Draft) (packed : PackedContainer) (i : Nat) : Prop :=
  i < Container.headerSize + d.units.length * Container.recordSize ∨
    ∃ unit u, packed.units[unit]? = some u ∧
      (u.offset ≤ i ∧ i < u.offset + Container.unitHeaderSize ∨
        ∃ s ∈ d.survivors unit, u.offset + d.placeIn unit s.reference ≤ i ∧
          i < u.offset + d.placeIn unit s.reference + s.content.length)

/-- How a container is laid out. -/
structure WellLaid (d : Draft) (packed : PackedContainer) : Prop where
  opens : ∃ r, Container.Reader.ofBytes packed.bytes = .ok r ∧ r.unitCount = d.units.length ∧
    ∀ unit u, packed.units[unit]? = some u → (r.record unit).fileHandle = 0 ∧
      (r.record unit).offset.toNat = u.offset ∧ (r.record unit).size.toNat = u.size
  /-- The data units come in the order of their registration. -/
  order : packed.units.map (·.signature) = d.units.map (·.signature)
  units : ∀ unit u, packed.units[unit]? = some u → d.UnitLaid unit u
  behindRecords : ∀ u ∈ packed.units,
    Container.headerSize + d.units.length * Container.recordSize ≤ u.offset
  inside : ∀ u ∈ packed.units, u.offset + u.size ≤ packed.bytes.length
  /-- Each data unit stands behind those that were registered before it. -/
  apart : packed.units.Pairwise fun u v => u.offset + u.size ≤ v.offset
  padding : ∀ i < packed.bytes.length, ¬ d.Occupied packed i → packed.bytes[i]? = some 0
  /-- The blocks that survive stand at their places. -/
  stand : ∀ unit < d.units.length, ∀ s ∈ d.survivors unit,
    s.StandsAt d.endian (packed.unitBytes unit) (d.placeIn unit)

theorem length_sections (d : Draft) (unit : Nat) :
    (d.sections unit).length = d.blocks.countP fun block => block.body.any (·.unit = unit) := by
  unfold sections
  rw [List.length_filterMap_eq_countP]
  refine List.countP_congr fun block _ => ?_
  cases hbody : block.body with
  | none => simp
  | some body =>
    by_cases hunit : body.unit = unit <;> simp [hunit, Block.section?, hbody]

/-- The blocks that survive have the extents at which they were placed. -/
theorem Valid.survivors_extents {d : Draft} (valid : d.Valid) {unit last : Nat}
    {root : Option Reference} {image : LinkedUnit} {slots : List (Nat × Bytes)}
    (linkage : Linkage d.endian root (Section.merge d.endian (d.sections unit)).1 (d.aliases unit)
      image (d.placements unit) last slots) :
    (d.survivors unit).map (fun s => (d.placeIn unit s.reference, s.content.length))
      = (d.placements unit).map fun p => (p.start, p.placed.content.length) := by
  rw [← List.forall₂_eq_eq_eq, List.forall₂_map_left_iff, List.forall₂_map_right_iff]
  refine (valid.survivors_placed linkage).imp fun s p ⟨_, hplace, hstands⟩ => ?_
  rw [hplace, hstands.size]

/-- What holds of the extents of all placed sections holds of the blocks that survive. -/
theorem Valid.forall_survivors {d : Draft} (valid : d.Valid) {unit last : Nat}
    {root : Option Reference} {image : LinkedUnit} {slots : List (Nat × Bytes)}
    (linkage : Linkage d.endian root (Section.merge d.endian (d.sections unit)).1 (d.aliases unit)
      image (d.placements unit) last slots) (P : Nat → Nat → Prop) :
    (∀ s ∈ d.survivors unit, P (d.placeIn unit s.reference) s.content.length) ↔
      ∀ p ∈ d.placements unit, P p.start p.placed.content.length := by
  have hextents := valid.survivors_extents linkage
  have hleft := List.forall_mem_map (l := d.survivors unit) (P := fun x : Nat × Nat => P x.1 x.2)
    (f := fun s => (d.placeIn unit s.reference, s.content.length))
  rw [hextents, List.forall_mem_map] at hleft
  exact hleft.symm

/-- What linking makes of a data unit. -/
theorem Valid.unitLaid {d : Draft} (valid : d.Valid) {unit offset : Nat} {root : Option Reference}
    {image : LinkedUnit} (signature : Digest)
    (h : LinkedUnit.ofSections d.endian unit root (d.sections unit) = .ok image)
    (aligned : image.alignment ∣ offset) : d.UnitLaid unit (image.summary signature offset) := by
  obtain ⟨halignment, hblocks, hmerged⟩ := LinkedUnit.ofSections_counts h
  obtain ⟨last, slots, hlinkage⟩ := ofSections_linkage valid h
  have hmerging := valid.merging unit
  have hlength := hlinkage.length_bytes hmerging.coherent
  have hplaced := valid.survivors_placed hlinkage
  have hcount : image.blocks = (d.survivors unit).length := by
    rw [hblocks, ← hlinkage.placed, List.length_map, hplaced.length_eq]
  -- The alignment of a unit is the greatest one of its sections, and at least that of all units.
  have hpower : isPowerOfTwo Container.unitAlignment = true := by decide
  obtain ⟨-, hunit, hsections⟩ :=
    foldl_max_alignment hpower fun s hs => (hmerging.coherent.wellFormed s hs).power
  rw [← halignment] at hunit hsections
  exact
    { aligned := Nat.dvd_trans hunit aligned
      blocksAligned := by
        intro s hs
        obtain ⟨i, hi, rfl⟩ := List.getElem_of_mem hs
        have hi' := hplaced.length_eq ▸ hi
        obtain ⟨hp, -, hstands⟩ := hplaced.get hi hi'
        have halign : (d.placements unit)[i].placed.alignment = (d.survivors unit)[i].alignment :=
          hstands.alignment
        exact halign ▸ Nat.dvd_trans (hsections _ (hlinkage.mem_kept hp)) aligned
      behindHeader := by
        exact (valid.forall_survivors hlinkage fun start _ => Container.unitHeaderSize ≤ start).mpr
          hlinkage.laid.le_start
      inside := by
        refine (valid.forall_survivors hlinkage fun start size => start + size ≤ image.bytes.length).mpr
          fun p hp => ?_
        rw [hlength]
        exact hlinkage.laid.stop_le p hp
      apart := by
        have hapart : ((d.survivors unit).map fun s =>
            (d.placeIn unit s.reference, s.content.length)).Pairwise fun x y => x.1 + x.2 ≤ y.1 := by
          rw [valid.survivors_extents hlinkage]
          exact List.pairwise_map.mpr hlinkage.laid.apart
        exact List.pairwise_map.mp hapart
      size := by
        show Container.unitHeaderSize ≤ image.bytes.length
        rw [hlength]
        exact hlinkage.laid.le
      blocks := hcount
      merged := by
        show image.blocks + image.merged = _
        have hle := hmerging.order.length_le
        rw [List.length_map, List.length_map] at hle
        rw [hblocks, hmerged, ← length_sections]
        omega }

/-- The blocks that survive stand at their places. -/
theorem Valid.survivors_stand {d : Draft} (valid : d.Valid) {unit : Nat} {root : Option Reference}
    {image : LinkedUnit}
    (h : LinkedUnit.ofSections d.endian unit root (d.sections unit) = .ok image) {s : Section}
    (hs : s ∈ d.survivors unit) : s.StandsAt d.endian image.bytes (d.placeIn unit) := by
  obtain ⟨last, slots, hlinkage⟩ := ofSections_linkage valid h
  obtain ⟨hmem, hself⟩ := mem_survivors.mp hs
  obtain ⟨block, hblock, body, hbody, hin, rfl⟩ := mem_sections.mp hmem
  obtain ⟨p, hp, hnamed, hstands⟩ :=
    valid.exists_placed hlinkage hblock hbody hin (Or.inl hself)
  exact hlinkage.standsAt (valid.merging unit) (valid.coherent unit) hp hmem hstands hnamed

/-- Inside a data unit, what belongs to no block is padding. -/
theorem Valid.unit_padding {d : Draft} (valid : d.Valid) {unit : Nat} {root : Option Reference}
    {image : LinkedUnit}
    (h : LinkedUnit.ofSections d.endian unit root (d.sections unit) = .ok image) {i : Nat}
    (low : Container.unitHeaderSize ≤ i) (high : i < image.bytes.length)
    (between : ∀ s ∈ d.survivors unit, i < d.placeIn unit s.reference ∨
      d.placeIn unit s.reference + s.content.length ≤ i) : image.bytes[i]? = some 0 := by
  obtain ⟨last, slots, hlinkage⟩ := ofSections_linkage valid h
  exact hlinkage.padding (valid.merging unit).coherent low high
    ((valid.forall_survivors hlinkage fun start size => i < start ∨ start + size ≤ i).mp between)

/-- A data unit begins at a multiple of the alignment of each of its blocks, be it merged or not. -/
theorem Valid.block_dvd_offset {d : Draft} (valid : d.Valid) {unit : Nat} {u : UnitSummary}
    (laid : d.UnitLaid unit u) (tell : Section.DigestsTell d.endian (d.sections unit)) {block : Block}
    (hblock : block ∈ d.blocks) {body : Body} (hbody : body ∈ block.body) (hin : body.unit = unit) :
    block.alignment ∣ u.offset := by
  have hs := mem_sections.mpr ⟨block, hblock, body, hbody, hin, rfl⟩
  -- What stands in for a merged block comes from a block that survives.
  obtain ⟨k, hk, -, hstands⟩ := valid.exists_standIn hs (Or.inr tell)
  obtain ⟨hself, t, ht, hreference, hfor⟩ := (valid.merging unit).survivors k hk
  have hsurvives : t ∈ d.survivors unit :=
    mem_survivors.mpr ⟨ht, (congrArg _ hreference).trans (hself.trans hreference.symm)⟩
  have halignment : t.alignment = block.alignment := hfor.alignment.symm.trans hstands.alignment
  exact halignment ▸ laid.blocksAligned t hsurvives

/-- The alignment of a linked data unit is a power of two. -/
theorem Valid.isPowerOfTwo_image {d : Draft} (valid : d.Valid) {unit : Nat} {root : Option Reference}
    {image : LinkedUnit} (h : LinkedUnit.ofSections d.endian unit root (d.sections unit) = .ok image) :
    isPowerOfTwo image.alignment = true := by
  rw [(LinkedUnit.ofSections_counts h).1]
  exact (foldl_max_alignment (by decide) fun s hs =>
    ((valid.merging unit).coherent.wellFormed s hs).power).1

/-- In a data unit of a container, what is not occupied is padding. -/
theorem Valid.padding_of_free {d : Draft} {packed : PackedContainer} (valid : d.Valid) {unit i : Nat}
    {root : Option Reference} {image : LinkedUnit} {u : UnitSummary}
    (h : LinkedUnit.ofSections d.endian unit root (d.sections unit) = .ok image)
    (hu : packed.units[unit]? = some u) (size : u.size = image.bytes.length)
    (stands : packed.bytes.HasAt u.offset image.bytes) (low : u.offset ≤ i) (high : i < u.offset + u.size)
    (free : ¬ d.Occupied packed i) : packed.bytes[i]? = some 0 := by
  obtain ⟨j, rfl⟩ := Nat.exists_eq_add_of_le low
  rw [stands j (by omega)]
  refine valid.unit_padding h ?_ (by omega) fun s hs => ?_
  · refine Nat.not_lt.mp fun hheader => free (Or.inr ⟨unit, u, hu, Or.inl ?_⟩)
    omega
  · by_contra hcovered
    refine free (Or.inr ⟨unit, u, hu, Or.inr ⟨s, hs, ?_⟩⟩)
    omega

/-- What linking makes of a valid draft is well laid out. -/
theorem Valid.wellLaid {d : Draft} {packed : PackedContainer} (hvalid : d.Valid)
    (linked : d.link = .ok packed) : d.WellLaid packed := by
  obtain ⟨r, hr, hcount, -⟩ := link_opens hvalid linked
  obtain ⟨images, hjoined, himages, hsections⟩ := link_joined linked
  have hof : ∀ (unit : Nat) (du : DraftUnit) (image : LinkedUnit), d.units[unit]? = some du →
      images[unit]? = some image →
      LinkedUnit.ofSections d.endian unit du.root (d.sections unit) = .ok image := by
    intro unit du image hdu himage
    obtain ⟨image', himage', hof⟩ := hsections unit du hdu
    obtain rfl := Option.some.inj (himage.symm.trans himage')
    exact hof
  have hpowers : ∀ image ∈ images, isPowerOfTwo image.alignment = true := by
    intro image hmem
    obtain ⟨unit, hunit, rfl⟩ := List.getElem_of_mem hmem
    exact hvalid.isPowerOfTwo_image (hof unit _ _ (List.getElem?_eq_getElem (himages ▸ hunit))
      (List.getElem?_eq_getElem hunit))
  have hstacked := hjoined.unitsStacked himages hpowers
  have hfits := hjoined.fits
  refine
    { opens := ⟨r, hr, hcount, ?_⟩
      order := hstacked.order
      units := ?_
      behindRecords := ?_
      inside := ?_
      apart := hstacked.apart
      padding := ?_
      stand := ?_ }
  · intro unit u hu
    obtain ⟨-, image, -, himage, -⟩ := hstacked.part unit u hu
    obtain ⟨-, hstop, -⟩ := hjoined.unit_stands himage hu
    rw [hjoined.record_eq hr (List.getElem?_eq_some_iff.mp himage).1 hu]
    exact ⟨rfl, UInt32.toNat_ofNat_of_lt' (show u.offset < wordLimit by omega),
      UInt32.toNat_ofNat_of_lt' (show u.size < wordLimit by omega)⟩
  · intro unit u hu
    obtain ⟨du, image, hdu, himage, hsummary, hdvd, -⟩ := hstacked.part unit u hu
    rw [hsummary]
    exact hvalid.unitLaid du.signature (hof unit du image hdu himage) hdvd
  · intro u hu
    obtain ⟨unit, hunit⟩ := List.mem_iff_getElem?.mp hu
    obtain ⟨-, -, -, -, -, -, hbehind⟩ := hstacked.part unit u hunit
    rwa [← himages]
  · intro u hu
    obtain ⟨unit, hunit⟩ := List.mem_iff_getElem?.mp hu
    obtain ⟨-, image, -, himage, -⟩ := hstacked.part unit u hunit
    exact (hjoined.unit_stands himage hunit).2.1
  · intro i hi hfree
    have hrecords : Container.headerSize + images.length * Container.recordSize ≤ i := by
      refine Nat.not_lt.mp fun hlow => hfree (Or.inl ?_)
      rwa [← himages]
    by_cases hunit : ∃ u ∈ packed.units, u.offset ≤ i ∧ i < u.offset + u.size
    · obtain ⟨u, hmem, hlow, hhigh⟩ := hunit
      obtain ⟨unit, hu⟩ := List.mem_iff_getElem?.mp hmem
      obtain ⟨du, image, hdu, himage, -⟩ := hstacked.part unit u hu
      obtain ⟨hsize, -, hstands⟩ := hjoined.unit_stands himage hu
      exact hvalid.padding_of_free (hof unit du image hdu himage) hu hsize hstands hlow hhigh hfree
    · refine hstacked.padding i hi hrecords fun u hu => ?_
      by_contra hcovered
      exact hunit ⟨u, hu, by omega⟩
  · intro unit hunit s hs
    have himage := List.getElem?_eq_getElem (himages.symm ▸ hunit)
    rw [hjoined.unitBytes himage]
    exact hvalid.survivors_stand (hof unit _ _ (List.getElem?_eq_getElem hunit) himage) hs

/-- Every container that linking makes is well laid out. -/
theorem link_wellLaid {d : Draft} {packed : PackedContainer} (reachable : d.Reachable)
    (linked : d.link = .ok packed) : d.WellLaid packed :=
  reachable.valid.wellLaid linked

/-- A container of two data units, the first of them with a merged block. -/
theorem link_wellLaid_mixed : ∃ d packed, mixed = some d ∧ d.link = .ok packed ∧
    packed.units.map (fun u => (u.blocks, u.merged)) = [(3, 1), (1, 0)] ∧ d.WellLaid packed := by
  have hcheck : mixed.any (fun d => d.link.toOption.any fun packed =>
      packed.units.map (fun u => (u.blocks, u.merged)) = [(3, 1), (1, 0)]) = true := by
    decide +kernel
  simp only [Option.any_eq_true, decide_eq_true_eq, toOption_eq_some] at hcheck
  obtain ⟨d, hd, packed, hpacked, hunits⟩ := hcheck
  exact ⟨d, packed, hd, hpacked, hunits, link_wellLaid (reachable_of_after? hd) hpacked⟩

end Draft

end ObjectPack
