import ObjectPack.Proofs.Draft.Recode
import ObjectPack.Proofs.Link.Layout
import ObjectPack.Proofs.Link.Order
import ObjectPack.Proofs.Draft.Link

/-!
# Containers in another encoding

A script that leaves it to the draft how references are written can be run with any encoding.  The drafts
differ in the encoding of their sites (`Draft.Recoded`), so the same blocks are merged and all places are the
same.  What is linked differs in the slots of the sites, in the chain that the headers of the data units
announce, and in the marker and the checksum of the container, and nowhere else (`Draft.link_recode`).
-/

namespace ObjectPack

open Outcome Placement

/-! ### Placed sections -/

namespace Placement

variable {m : PointerEncoding} {placements : List Placement} {aliases : Aliases}

/-- A placed section with all its sites in another encoding. -/
def recode (m : PointerEncoding) (p : Placement) : Placement := { p with placed := p.placed.recode m }

/-- Sections in another encoding are placed alike. -/
theorem place_recode (unit position : Nat) (sections : List Section) :
    place unit position (sections.map (·.recode m))
      = (place unit position sections).map fun x => (x.1.map (·.recode m), x.2) := by
  induction sections generalizing position with
  | nil =>
    rw [List.map_nil, place]
    split <;> rfl
  | cons s rest ih =>
    rw [List.map_cons, place, place]
    split
    · rfl
    · show (liftM (alignUp position s.alignment) >>= fun start => place unit (start + s.content.length)
        (rest.map (·.recode m)) >>= _) = _
      cases alignUp position s.alignment with
      | error fault => rfl
      | ok start =>
        show (place unit (start + s.content.length) (rest.map (·.recode m)) >>= _)
          = Except.map _ (place unit (start + s.content.length) rest >>= _)
        rw [ih]
        cases place unit (start + s.content.length) rest <;> rfl

/-- Places do not ask for the encoding. -/
theorem placeOf_recode (r : Reference) :
    placeOf (placements.map (·.recode m)) aliases r = placeOf placements aliases r := by
  unfold placeOf
  rw [List.flatMap_map]
  rfl

theorem pointersOf_recode : pointersOf (placements.map (·.recode m)) aliases
    = (pointersOf placements aliases).map fun x => (x.1, m) := by
  unfold pointersOf
  rw [List.flatMap_map, List.map_flatMap]
  refine List.flatMap_congr fun p _ => ?_
  show (p.placed.sites.map (·.recode m)).map _ = _
  rw [List.map_map, List.map_map]
  refine List.map_congr_left fun site _ => ?_
  simp only [Function.comp_apply, pointerOf, placeOf_recode]
  rfl

theorem fill_recode (b : Bytes) : fill (placements.map (·.recode m)) b = fill placements b := by
  unfold fill
  rw [List.foldl_map]
  rfl

/-- What is filled into byte strings leaves them in agreement. -/
theorem fill_agree {P : Nat → Prop} {b b' : Bytes} (placements : List Placement)
    (h : b.AgreeWhere P b') : (fill placements b).AgreeWhere P (fill placements b') := by
  induction placements generalizing b b' with
  | nil => exact h
  | cons p rest ih => exact ih ((h.padTo p.start).append (.refl _ _))

end Placement

/-- Headers that name the same root agree behind the chain. -/
theorem Container.UnitHeader.toBytes_agree (e : Endian) {h h' : Container.UnitHeader}
    (root : h'.root = h.root) : (h.toBytes e).AgreeWhere (8 ≤ ·) (h'.toBytes e) := by
  have hchain : (e.bytes32 h.firstPointer ++ e.bytes32 h.pointerCount).AgreeWhere (8 ≤ ·)
      (e.bytes32 h'.firstPointer ++ e.bytes32 h'.pointerCount) := by
    refine ⟨by simp, fun i hi => ?_⟩
    rw [List.getElem?_eq_none (by simpa using hi), List.getElem?_eq_none (by simpa using hi)]
  unfold toBytes
  rw [root]
  exact (hchain.append (.refl _ _)).append (.refl _ _)

/-- The pointers of a linked unit are those of all its sites. -/
theorem LinkedUnit.ofSections_pointers {e : Endian} {unit : Nat} {root : Option Reference}
    {sections : List Section} {image : LinkedUnit} (h : ofSections e unit root sections = .ok image) :
    ∃ placements last, Placement.place unit Container.unitHeaderSize (Section.merge e sections).1
        = .ok (placements, last) ∧
      image.pointers = (pointersOf placements (Section.merge e sections).2).length := by
  unfold ofSections at h
  simp only [bind_eq_ok, mapError_eq_ok, Prod.exists] at h
  obtain ⟨placements, last, hplace, found, hfound, slots, -, h⟩ := h
  refine ⟨placements, last, hplace, ?_⟩
  rw [← flatten_pointers hfound]
  cases root with
  | none =>
    cases h
    rfl
  | some reference =>
    simp only [bind_eq_ok, lift_eq_ok, pure_eq_ok] at h
    obtain ⟨place, -, _, -, rfl⟩ := h
    rfl

/-! ### Images -/

/-- Whether two images take the same room and report the same. -/
structure LinkedUnit.SameOutline (image image' : LinkedUnit) : Prop where
  length : image'.bytes.length = image.bytes.length
  alignment : image'.alignment = image.alignment
  blocks : image'.blocks = image.blocks
  merged : image'.merged = image.merged
  pointers : image'.pointers = image.pointers

variable {images images' : List LinkedUnit}

/-- Images of the same outlines are appended at the same offsets, and what they are appended to goes on to
agree where the images do. -/
theorem appendImages_agree {P : Nat → Prop} {b b' laid laid' : Bytes} {offsets offsets' : List Nat}
    (same : List.Forall₂ LinkedUnit.SameOutline images images') (agree : b.AgreeWhere P b')
    (parts : ∀ (k : Nat) (image image' : LinkedUnit) (offset : Nat), images[k]? = some image →
      images'[k]? = some image' → offsets[k]? = some offset →
      image.bytes.AgreeWhere (fun i => P (offset + i)) image'.bytes)
    (h : appendImages b images = .ok (laid, offsets)) (h' : appendImages b' images' = .ok (laid', offsets')) :
    offsets' = offsets ∧ laid.AgreeWhere P laid' := by
  induction same generalizing b b' offsets offsets' with
  | nil =>
    cases h
    cases h'
    exact ⟨rfl, agree⟩
  | cons first rest ih =>
    unfold appendImages at h h'
    simp only [bind_eq_ok, refuse_if_eq_ok, lift_eq_ok, pure_eq_ok, Prod.exists, Prod.mk.injEq] at h h'
    obtain ⟨-, offset, hoffset, _, later, hrest, rfl, rfl⟩ := h
    obtain ⟨-, offset', hoffset', _, later', hrest', rfl, rfl⟩ := h'
    have hpad : (b.padTo offset).length = offset := by
      rw [Bytes.length_padTo]
      have hle := le_of_alignUp hoffset
      omega
    rw [agree.length, first.alignment, hoffset] at hoffset'
    obtain rfl := Except.ok.inj hoffset'
    have hfirst := parts 0 _ _ offset rfl rfl rfl
    obtain ⟨rfl, hlaid⟩ := ih ((agree.padTo offset).append (hpad.symm ▸ hfirst))
      (fun k image image' start himage himage' hstart => parts (k + 1) image image' start himage himage' hstart)
      hrest hrest'
    exact ⟨rfl, hlaid⟩

/-- Images of the same outlines are reported alike. -/
theorem summaries_eq (same : List.Forall₂ LinkedUnit.SameOutline images images') (units : List DraftUnit)
    (offsets : List Nat) :
    ((units.zip images').zip offsets).map (fun x => x.1.2.summary x.1.1.signature x.2)
      = ((units.zip images).zip offsets).map fun x => x.1.2.summary x.1.1.signature x.2 := by
  induction same generalizing units offsets with
  | nil => rfl
  | cons first rest ih =>
    cases units with
    | nil => rfl
    | cons u units =>
      cases offsets with
      | nil => rfl
      | cons offset offsets =>
        refine congrArg₂ List.cons ?_ (ih units offsets)
        simp only [LinkedUnit.summary, first.length, first.blocks, first.merged, first.pointers]

/-! ### Containers -/

/-- Headers that differ in the encoding and in the checksum agree everywhere else. -/
theorem Container.Header.toBytes_agree (h : Container.Header) (m : PointerEncoding) (checksum : UInt32) :
    h.toBytes.AgreeWhere (fun i => i ≠ 5 ∧ (i < 12 ∨ 16 ≤ i))
      { h with pointers := m, checksum := checksum }.toBytes := by
  have hmarkers : Bytes.AgreeWhere (fun i => i ≠ 5 ∧ (i < 12 ∨ 16 ≤ i))
      (h.magic.toList ++ [h.endian.marker, h.pointers.marker, 0, 0])
      (h.magic.toList ++ [h.endian.marker, m.marker, 0, 0]) := by
    refine (Bytes.AgreeWhere.refl _ _).append ⟨rfl, fun i hi => ?_⟩
    obtain _ | _ | i := i
    · rfl
    · exact absurd (by simp) hi.1
    · rfl
  have hchecksum : (h.endian.bytes32 h.checksum).AgreeWhere
      (fun i => 12 + i ≠ 5 ∧ (12 + i < 12 ∨ 16 ≤ 12 + i)) (h.endian.bytes32 checksum) := by
    refine ⟨by simp, fun i hi => ?_⟩
    rw [List.getElem?_eq_none (by simp; omega), List.getElem?_eq_none (by simp; omega)]
  unfold toBytes
  refine (((hmarkers.append (.refl _ _)).append ?_).append (.refl _ _)).append (.refl _ _) |>.append
    (.refl _ _)
  simpa using hchecksum

namespace Draft

variable {d d' : Draft} {packed packed' : PackedContainer} {unit : Nat}

/-- Whether two drafts hold the same, each with all sites in its own encoding. -/
structure Recoded (d d' : Draft) : Prop where
  valid : d.Valid
  valid' : d'.Valid
  endian : d'.endian = d.endian
  units : d'.units = d.units
  sections : ∀ unit, d'.sections unit = (d.sections unit).map (·.recode d'.encoding)
  merging : ∀ unit < d.units.length,
    Section.Recoded d.endian d.encoding d'.encoding (d.sections unit)

/-- What a script leads to in two encodings. -/
theorem Run.recoded {platform : Platform} {encoding encoding' : PointerEncoding} {supply : Supply}
    {ops : List Operation} (run : Run (blank platform encoding supply) ops d)
    (run' : Run (blank platform encoding' supply) ops d') (plain : ∀ op ∈ ops, op.Plain)
    (suffice : d.DigestsSuffice) (suffice' : d'.DigestsSuffice) : Recoded d d' := by
  have hvalid := (blank_valid platform encoding supply).moves run.moves
  have hvalid' := (blank_valid platform encoding' supply).moves run'.moves
  have hencoding : d.encoding = encoding := (run.moves_of_plain plain).encoding_eq rfl
  have hencoding' : d'.encoding = encoding' := (run'.moves_of_plain plain).encoding_eq rfl
  have htells := Transcript.tells_of_run run
  have htells' := Transcript.tells_of_run run'
  rw [Transcript.of_recode (n := encoding) plain] at htells'
  have hbare := htells.bare_recode htells'
  have hendian := htells.endian_recode htells'
  have hunits := htells.units_eq htells' hbare fun _ => rfl
  have hsections : ∀ unit, d'.sections unit = (d.sections unit).map (·.recode d'.encoding) := by
    rw [hencoding']
    exact htells.sections_recode htells' hvalid hvalid'
  refine ⟨hvalid, hvalid', hendian, hunits, hsections, fun unit hunit => ?_⟩
  refine ⟨hvalid.coherent unit, ?_, suffice unit hunit, ?_⟩
  · rw [hencoding]
    exact run.sections_encoded plain unit
  · rw [← hsections, ← hendian]
    exact suffice' unit (hunits.symm ▸ hunit)

/-! ### Merging and placing -/

namespace Recoded

theorem merge (h : Recoded d d') (hunit : unit < d.units.length) :
    Section.merge d'.endian (d'.sections unit)
      = ((Section.merge d.endian (d.sections unit)).1.map (·.recode d'.encoding),
          (Section.merge d.endian (d.sections unit)).2) := by
  rw [h.endian, h.sections]
  exact (h.merging unit hunit).merge

/-- The same blocks are merged. -/
theorem aliases (h : Recoded d d') (hunit : unit < d.units.length) : d'.aliases unit = d.aliases unit := by
  unfold Draft.aliases
  rw [h.merge hunit]

/-- The blocks that remain are placed alike. -/
theorem placements (h : Recoded d d') (hunit : unit < d.units.length) :
    d'.placements unit = (d.placements unit).map (·.recode d'.encoding) := by
  unfold Draft.placements
  rw [h.merge hunit, Placement.place_recode]
  cases Placement.place unit Container.unitHeaderSize (Section.merge d.endian (d.sections unit)).1 <;> rfl

/-- Everything has the same place. -/
theorem placeIn (h : Recoded d d') (hunit : unit < d.units.length) : d'.placeIn unit = d.placeIn unit := by
  funext r
  unfold Draft.placeIn
  rw [h.placements hunit, h.aliases hunit, placeOf_recode]

end Recoded

/-! ### Data units -/

/-- Whether a position of a data unit belongs to the chain that its header announces, or to the slot of a
site. -/
def PointerAt (d : Draft) (unit i : Nat) : Prop :=
  i < 8 ∨ ∃ s ∈ d.survivors unit, ∃ site ∈ s.sites,
    d.placeIn unit s.reference + site.offset ≤ i ∧
      i < d.placeIn unit s.reference + site.offset + Pointer.slotSize

/-- The slots of placed sections are those of the blocks that survive. -/
theorem Valid.pointerAt_of_placed (valid : d.Valid) {root : Option Reference} {image : LinkedUnit}
    {last : Nat} {slots : List (Nat × Bytes)}
    (linkage : Linkage d.endian root (Section.merge d.endian (d.sections unit)).1 (d.aliases unit) image
      (d.placements unit) last slots) {p : Placement} (hp : p ∈ d.placements unit) {site : Site}
    (hsite : site ∈ p.placed.sites) {i : Nat} (low : p.start + site.offset ≤ i)
    (high : i < p.start + site.offset + Pointer.slotSize) : d.PointerAt unit i := by
  have hplaced := valid.survivors_placed linkage
  obtain ⟨k, hk, rfl⟩ := List.getElem_of_mem hp
  have hk' := hplaced.length_eq.symm ▸ hk
  obtain ⟨-, hstart, hstands⟩ := hplaced.get hk' hk
  rw [List.get_eq_getElem, List.get_eq_getElem] at hstart hstands
  rw [hstands.sites] at hsite
  obtain ⟨original, horiginal, rfl⟩ := List.mem_map.mp hsite
  refine Or.inr ⟨_, List.getElem_mem hk', original, horiginal, ?_⟩
  rw [hstart]
  exact ⟨low, high⟩

/-- A data unit is linked to images of the same outline, which agree where no pointer stands. -/
theorem Recoded.agree (h : Recoded d d') (hunit : unit < d.units.length) {root : Option Reference}
    {image image' : LinkedUnit}
    (linked : LinkedUnit.ofSections d.endian unit root (d.sections unit) = .ok image)
    (linked' : LinkedUnit.ofSections d'.endian unit root (d'.sections unit) = .ok image') :
    image.SameOutline image' ∧ image.bytes.AgreeWhere (¬ d.PointerAt unit ·) image'.bytes := by
  obtain ⟨last, slots, hlinkage⟩ := ofSections_linkage h.valid linked
  obtain ⟨last', slots', hlinkage'⟩ := ofSections_linkage h.valid' linked'
  have hcoherent := (h.valid.merging unit).coherent
  have hcoherent' := (h.valid'.merging unit).coherent
  obtain ⟨halignment, hblocks, hmerged⟩ := LinkedUnit.ofSections_counts linked
  obtain ⟨halignment', hblocks', hmerged'⟩ := LinkedUnit.ofSections_counts linked'
  obtain ⟨placements, stop, hplace, hpointers⟩ := LinkedUnit.ofSections_pointers linked
  obtain ⟨placements', stop', hplace', hpointers'⟩ := LinkedUnit.ofSections_pointers linked'
  have hplaced' := h.placements hunit
  -- Filled in, the images differ in what the headers say of the chain.
  have hheader : (headerOf (d'.placements unit) (d'.aliases unit) root).root
      = (headerOf (d.placements unit) (d.aliases unit) root).root := by
    show root.elim _ _ = root.elim _ _
    rw [hplaced', h.aliases hunit]
    simp only [placeOf_recode]
  have hfilled : (fill (d.placements unit)
      ((headerOf (d.placements unit) (d.aliases unit) root).toBytes d.endian)).AgreeWhere (8 ≤ ·)
      (fill (d'.placements unit)
        ((headerOf (d'.placements unit) (d'.aliases unit) root).toBytes d'.endian)) := by
    rw [h.endian]
    refine Eq.subst (motive := Bytes.AgreeWhere _ _) ?_
      (fill_agree (d.placements unit) (Container.UnitHeader.toBytes_agree d.endian hheader))
    rw [← fill_recode, ← hplaced']
  have hlength : image'.bytes.length = image.bytes.length := by
    rw [hlinkage.bytes, hlinkage'.bytes, length_patchAll (hlinkage.slots_inside hcoherent),
      length_patchAll (hlinkage'.slots_inside hcoherent')]
    exact hfilled.length
  refine ⟨⟨hlength, ?_, ?_, ?_, ?_⟩, hlength, fun i hi => ?_⟩
  · rw [halignment, halignment', h.merge hunit, List.foldl_map]
    rfl
  · rw [hblocks, hblocks', h.merge hunit, List.length_map]
  · rw [hmerged, hmerged', h.merge hunit, h.sections, List.length_map, List.length_map]
  · rw [h.merge hunit, Placement.place_recode, hplace] at hplace'
    cases hplace'
    rw [hpointers, hpointers', h.merge hunit, pointersOf_recode, List.length_map]
  · -- What is written into slots stands where pointers stand.
    have houtside : OutsideSlots ((pointersOf (d.placements unit) (d.aliases unit)).filterMap
        (plainSlot? d.endian) ++ slots) i := by
      intro slot hslot
      obtain ⟨hslotLength, p, hp, site, hsite, hposition⟩ := hlinkage.site_of_slot hcoherent hslot
      by_contra hinside
      refine hi (h.valid.pointerAt_of_placed hlinkage hp hsite ?_ ?_) <;> omega
    have houtside' : OutsideSlots ((pointersOf (d'.placements unit) (d'.aliases unit)).filterMap
        (plainSlot? d'.endian) ++ slots') i := by
      intro slot hslot
      obtain ⟨hslotLength, p', hp', site', hsite', hposition⟩ := hlinkage'.site_of_slot hcoherent' hslot
      rw [hplaced'] at hp'
      obtain ⟨p, hp, rfl⟩ := List.mem_map.mp hp'
      obtain ⟨site, hsite, rfl⟩ := List.mem_map.mp hsite'
      have hsame : slot.1 = p.start + site.offset := hposition
      by_contra hinside
      refine hi (h.valid.pointerAt_of_placed hlinkage hp hsite ?_ ?_) <;> omega
    rw [hlinkage.bytes, hlinkage'.bytes, getElem?_patchAll (hlinkage.slots_inside hcoherent) houtside,
      getElem?_patchAll (hlinkage'.slots_inside hcoherent') houtside']
    exact hfilled.bytes i (Nat.not_lt.mp fun hlow => hi (Or.inl hlow))

/-! ### Containers in two encodings -/

/-- Whether a position of a container may hold something else in another encoding: the marker of the
encoding, the checksum, or a position of a data unit that belongs to its pointers. -/
def EncodingAt (d : Draft) (packed : PackedContainer) (i : Nat) : Prop :=
  i = 5 ∨ (12 ≤ i ∧ i < 16) ∨
    ∃ unit u offset, packed.units[unit]? = some u ∧ d.PointerAt unit offset ∧ i = u.offset + offset

/-- Whether two containers of what drafts hold differ in nothing but the encoding of their pointers. -/
structure SameButPointers (d d' : Draft) (packed packed' : PackedContainer) : Prop where
  units : packed'.units = packed.units
  bytes : packed.bytes.AgreeWhere (¬ d.EncodingAt packed ·) packed'.bytes
  /-- A site stands at the same place in both, and refers to the same place. -/
  sites : ∀ unit < d.units.length, ∀ s ∈ d.sections unit, ∀ site ∈ s.sites,
    let position := d.placeIn unit s.reference + site.offset
    let target := d.placeIn unit site.target
    d.encoding.Refers d.endian (((packed.unitBytes unit).drop position).take Pointer.slotSize)
        position target ∧
      d'.encoding.Refers d.endian (((packed'.unitBytes unit).drop position).take Pointer.slotSize)
        position target

/-- Data units that agree where no pointer stands are joined to containers that agree where no encoding
shows. -/
theorem Recoded.join (h : Recoded d d') {images images' : List LinkedUnit} (joined : Joined d images packed)
    (joined' : Joined d' images' packed') (count : images.length = d.units.length)
    (same : List.Forall₂ LinkedUnit.SameOutline images images')
    (agree : ∀ (unit : Nat) (image image' : LinkedUnit), images[unit]? = some image →
      images'[unit]? = some image' → image.bytes.AgreeWhere (¬ d.PointerAt unit ·) image'.bytes) :
    packed'.units = packed.units ∧ packed.bytes.AgreeWhere (¬ d.EncodingAt packed ·) packed'.bytes := by
  obtain ⟨laid, offsets, happend, hunits, hlength, htail⟩ := joined.laid
  obtain ⟨laid', offsets', happend', hunits', hlength', htail'⟩ := joined'.laid
  have hcount' := same.length_eq
  -- An image may only differ in its pointers, and these are pointers of the container as well.
  have hparts : ∀ (unit : Nat) (image image' : LinkedUnit) (offset : Nat), images[unit]? = some image →
      images'[unit]? = some image' → offsets[unit]? = some offset →
      image.bytes.AgreeWhere (fun i => ¬ d.EncodingAt packed (offset + i)) image'.bytes := by
    intro unit image image' offset himage himage' hoffset
    refine (agree unit image image' himage himage').mono fun i hi hpointer => hi (Or.inr (Or.inr ?_))
    have hunit : unit < d.units.length := count ▸ (List.getElem?_eq_some_iff.mp himage).1
    have hpair : ((d.units.zip images).zip offsets)[unit]? = some ((d.units[unit], image), offset) :=
      List.getElem?_zip_eq_some.mpr
        ⟨List.getElem?_zip_eq_some.mpr ⟨List.getElem?_eq_getElem hunit, himage⟩, hoffset⟩
    refine ⟨unit, image.summary d.units[unit].signature offset, i, ?_, hpointer, rfl⟩
    rw [hunits, List.getElem?_map, hpair]
    rfl
  rw [← hcount'] at happend' htail'
  -- The images are equally long, so they stand at the same offsets.
  obtain ⟨rfl, hlaid⟩ := appendImages_agree (P := (¬ d.EncodingAt packed ·)) same (.refl _ _) hparts happend
    happend'
  have hsummaries : packed'.units = packed.units := by
    rw [hunits, hunits', h.units]
    exact summaries_eq same d.units offsets'
  have htotal : packed'.bytes.length = packed.bytes.length := by
    rw [hlength, hlength', hlaid.length]
  refine ⟨hsummaries, htotal, fun i hi => ?_⟩
  by_cases hheader : i < Container.headerSize
  · -- The headers differ in marker and checksum.
    obtain ⟨header, rest, hbytes, hfields⟩ := joined.layout
    obtain ⟨header', rest', hbytes', hfields'⟩ := joined'.layout
    have hagree := header.toBytes_agree d'.encoding (Checksum.crc32 rest')
    have hsame : header' = { header with pointers := d'.encoding, checksum := Checksum.crc32 rest' } := by
      rw [hfields', hfields, h.endian, htotal, hcount']
    rw [← hsame] at hagree
    rw [hbytes, hbytes', List.getElem?_append_left (by rwa [Container.Header.length_toBytes]),
      List.getElem?_append_left (by rwa [Container.Header.length_toBytes])]
    refine hagree.bytes i ⟨fun hmarker => hi (Or.inl hmarker), ?_⟩
    by_contra hchecksum
    exact hi (Or.inr (Or.inl (by omega)))
  · by_cases hrecords : i < Container.headerSize + images.length * Container.recordSize
    · -- The records tell where the data units stand.
      obtain ⟨unit, j, hj, rfl⟩ : ∃ unit j, j < Container.recordSize ∧
          i = Container.headerSize + unit * Container.recordSize + j := by
        unfold Container.recordSize at hrecords ⊢
        exact ⟨(i - Container.headerSize) / 16, (i - Container.headerSize) % 16, by omega, by omega⟩
      have hunit : unit < images.length := by
        unfold Container.recordSize at hrecords
        omega
      obtain ⟨u, hu, -, -, -, -, hrecord⟩ := joined.unit unit _ (List.getElem?_eq_getElem hunit)
      obtain ⟨u', hu', -, -, -, -, hrecord'⟩ :=
        joined'.unit unit _ (List.getElem?_eq_getElem (hcount' ▸ hunit))
      rw [hsummaries, hu] at hu'
      obtain rfl := Option.some.inj hu'
      rw [h.endian] at hrecord'
      rw [hrecord' j (by simpa using hj), hrecord j (by simpa using hj)]
    · rw [htail i (Nat.not_lt.mp hrecords), htail' i (Nat.not_lt.mp hrecords)]
      exact hlaid.bytes i hi

theorem PlacedIn.stands {bytes : Bytes} {place : Reference → Nat} (h : d.PlacedIn unit bytes place)
    {s : Section} (hs : s ∈ d.sections unit) : s.StandsAt d.endian bytes place := by
  obtain ⟨block, hblock, body, hbody, hin, rfl⟩ := mem_sections.mp hs
  exact h.blocks block hblock body hbody hin

/-- Run with two encodings, a script leads to containers that differ in nothing but the encoding of
their pointers. -/
theorem link_recode {platform : Platform} {encoding encoding' : PointerEncoding} {supply : Supply}
    {ops : List Operation} (run : Run (blank platform encoding supply) ops d)
    (run' : Run (blank platform encoding' supply) ops d') (plain : ∀ op ∈ ops, op.Plain)
    (suffice : d.DigestsSuffice) (suffice' : d'.DigestsSuffice) (linked : d.link = .ok packed)
    (linked' : d'.link = .ok packed') : SameButPointers d d' packed packed' := by
  have h := run.recoded run' plain suffice suffice'
  obtain ⟨images, hjoined, hcount, himages⟩ := link_joined linked
  obtain ⟨images', hjoined', hcount', himages'⟩ := link_joined linked'
  have hagree : ∀ (unit : Nat) (image image' : LinkedUnit), images[unit]? = some image →
      images'[unit]? = some image' →
      image.SameOutline image' ∧ image.bytes.AgreeWhere (¬ d.PointerAt unit ·) image'.bytes := by
    intro unit image image' himage himage'
    have hunit : unit < d.units.length := hcount ▸ (List.getElem?_eq_some_iff.mp himage).1
    obtain ⟨_, hsome, hlinked⟩ := himages unit _ (List.getElem?_eq_getElem hunit)
    have hfound : d'.units[unit]? = some d.units[unit] := by
      rw [h.units]
      exact List.getElem?_eq_getElem hunit
    obtain ⟨_, hsome', hlinked'⟩ := himages' unit _ hfound
    obtain rfl := Option.some.inj (himage.symm.trans hsome)
    obtain rfl := Option.some.inj (himage'.symm.trans hsome')
    exact h.agree hunit hlinked hlinked'
  have hsame : List.Forall₂ LinkedUnit.SameOutline images images' := by
    refine List.forall₂_iff_get.mpr ⟨by rw [hcount, hcount', h.units], fun unit hunit hunit' => ?_⟩
    exact (hagree unit _ _ (List.getElem?_eq_getElem hunit) (List.getElem?_eq_getElem hunit')).1
  obtain ⟨hunits, hbytes⟩ := h.join hjoined hjoined' hcount hsame
    fun unit image image' himage himage' => (hagree unit image image' himage himage').2
  refine ⟨hunits, hbytes, fun unit hunit s hs site hsite => ?_⟩
  have hvalid : d.Valid := Reachable.valid ⟨platform, encoding, supply, ops, run⟩
  have hvalid' : d'.Valid := Reachable.valid ⟨platform, encoding', supply, ops, run'⟩
  have hplaced := hvalid.placedIn linked hunit (suffice unit hunit)
  have hunit' : unit < d'.units.length := h.units.symm ▸ hunit
  have hplaced' := hvalid'.placedIn linked' hunit' (suffice' unit hunit')
  rw [h.placeIn hunit] at hplaced'
  have hs' : s.recode d'.encoding ∈ d'.sections unit := by
    rw [h.sections]
    exact List.mem_map_of_mem hs
  have hsite' : site.recode d'.encoding ∈ (s.recode d'.encoding).sites := List.mem_map_of_mem hsite
  have hrefers := (hplaced.stands hs).sites site hsite
  rw [(h.merging unit hunit).encoded s hs site hsite] at hrefers
  have hrefers' := (hplaced'.stands hs').sites _ hsite'
  rw [h.endian] at hrefers'
  exact ⟨hrefers, hrefers'⟩

/-- The twins as a chain and with absolute places: the containers differ. -/
theorem link_recode_twins : ∃ d d' packed packed',
    (blank .win64 .chained .full).after? twinOperations = some d ∧
    (blank .win64 .absolute .full).after? twinOperations = some d' ∧
    d.link = .ok packed ∧ d'.link = .ok packed' ∧ packed'.bytes ≠ packed.bytes ∧
    packed.units.map (·.merged) = [1] ∧ SameButPointers d d' packed packed' := by
  have hcheck : (twins .chained).any (fun d => (twins .absolute).any fun d' =>
      d.link.toOption.any (fun packed => d'.link.toOption.any fun packed' =>
        packed'.bytes ≠ packed.bytes && packed.units.map (·.merged) = [1]) &&
      d.units.length = 1 && d'.units.length = 1 &&
      Section.digestsTell d.endian 2 (d.sections 0) && Section.digestsTell d'.endian 2 (d'.sections 0)) = true := by
    decide +kernel
  simp only [Option.any_eq_true, Bool.and_eq_true, decide_eq_true_eq, toOption_eq_some] at hcheck
  obtain ⟨d, hd, d', hd', ⟨⟨⟨⟨packed, hpacked, packed', hpacked', hbytes, hmerged⟩, hsingle⟩, hsingle'⟩, htell⟩,
    htell'⟩ := hcheck
  exact ⟨d, d', packed, packed', hd, hd', hpacked, hpacked', hbytes, hmerged,
    link_recode (run_of_after? hd) (run_of_after? hd') (by decide) (.of_check hsingle htell)
      (.of_check hsingle' htell') hpacked hpacked'⟩

end Draft

end ObjectPack
