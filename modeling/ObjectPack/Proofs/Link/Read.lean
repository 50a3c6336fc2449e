import ObjectPack.Proofs.Draft.Extend
import ObjectPack.Proofs.Link.Graph
import ObjectPack.Proofs.Link.Resolve

/-!
# References read back

A reader tells references from null references by their slots, and a slot says no more than a distance.
What is shown here of drafts that write all references in one encoding is that a reader finds each of
them, and finds no reference where a null reference was written (`Draft.link_resolves`) – with one
exception, which the theorem names: a site whose target is placed at the site itself has a distance of
zero, and no reader can tell it from a null reference unless it links to a later site
(`Draft.LooksNull`).
-/

namespace ObjectPack

open Outcome Placement

namespace Linkage

variable {e : Endian} {root : Option Reference} {originals kept : List Section} {aliases : Aliases}
  {image : LinkedUnit} {placements : List Placement} {last : Nat} {slots : List (Nat × Bytes)}

/-- The pointer of a site, seen from the section that is stood in for. -/
structure SitePointer (placements : List Placement) (aliases : Aliases) (image : LinkedUnit)
    (e : Endian) (s : Section) (site : Site) (x : Pointer) : Prop where
  mem : (x, site.encoding) ∈ pointersOf placements aliases
  position : x.position.toNat = placeOf placements aliases s.reference + site.offset
  target : x.target.toNat = placeOf placements aliases site.target
  inside : x.position.toNat + Pointer.slotSize ≤ image.bytes.length
  behindHeader : Container.unitHeaderSize ≤ x.target.toNat
  slot : ∃ slot, image.bytes.HasAt x.position.toNat slot ∧
    SlotOf e (pointersOf placements aliases) x site.encoding slot

theorem exists_sitePointer (h : Linkage e root kept aliases image placements last slots)
    (merging : Section.Merging originals kept aliases) {p : Placement} (hp : p ∈ placements)
    {s : Section} (stands : p.placed.StandsFor aliases.resolve s)
    (named : p.placed.reference = aliases.resolve s.reference) {site : Site}
    (hsite : site ∈ s.sites) : ∃ x, SitePointer placements aliases image e s site x := by
  have hkept := merging.coherent
  have hplace := h.place_section hkept hp named.symm
  have htarget : placeOf placements aliases (aliases.resolve site.target)
      = placeOf placements aliases site.target := by
    rw [placeOf, merging.resolve_resolve, ← placeOf]
  have hmoved : { site with target := aliases.resolve site.target } ∈ p.placed.sites := by
    rw [stands.sites]
    exact List.mem_map_of_mem hsite
  have hposition := h.position_pointerOf hkept hp hmoved
  have htarget' := (h.target_pointerOf hkept hp hmoved).trans htarget
  have hbounds := h.place_bounds hkept (h.targetPlaced merging hp stands hsite)
  have hinside := h.slot_inside hkept hp hmoved
  have hstop := h.laid.stop_le p hp
  obtain ⟨slot, hat, hof⟩ := h.slot hkept hp hmoved
  refine ⟨(p.pointerOf placements aliases
    { site with target := aliases.resolve site.target }).1, ?_⟩
  exact
    { mem := mem_pointersOf.mpr ⟨p, hp, _, hmoved, rfl⟩
      position := by rw [hposition, hplace]
      target := htarget'
      inside := by
        rw [hposition, h.length_bytes hkept]
        exact Nat.le_trans hinside hstop
      behindHeader := by
        rw [htarget']
        exact hbounds.1
      slot := ⟨slot, hposition.symm ▸ hat, hof⟩ }

/-- Every pointer of a data unit is that of a site of a section that nothing else stands in for. -/
theorem exists_site_of_pointer (h : Linkage e root kept aliases image placements last slots)
    (merging : Section.Merging originals kept aliases) {x : Pointer × PointerEncoding}
    (hx : x ∈ pointersOf placements aliases) :
    ∃ s ∈ originals, aliases.resolve s.reference = s.reference ∧ ∃ site ∈ s.sites,
      x.2 = site.encoding ∧
      x.1.position.toNat = placeOf placements aliases s.reference + site.offset := by
  obtain ⟨p, hp, moved, hmoved, rfl⟩ := mem_pointersOf.mp hx
  obtain ⟨hself, s, hs, href, hstands⟩ := merging.survivors p.placed (h.mem_kept hp)
  have hmoved' := hmoved
  rw [hstands.sites] at hmoved'
  obtain ⟨site, hsite, rfl⟩ := List.mem_map.mp hmoved'
  refine ⟨s, hs, href ▸ hself, site, hsite, rfl, ?_⟩
  rw [h.position_pointerOf merging.coherent hp hmoved,
    h.place_section merging.coherent hp (href ▸ hself)]

end Linkage

namespace Draft

/-- Whether no site of a data unit stands behind a position. -/
def LastSite (d : Draft) (unit position : Nat) : Prop :=
  ∀ block ∈ d.blocks, ∀ body ∈ block.body, body.unit = unit → d.Survives unit block.reference →
    ∀ site ∈ body.sites, d.placeIn unit block.reference + site.offset ≤ position

/-- Whether a site at a position with its target at another one looks like a null reference: it refers
to itself, in an encoding that writes distances, and does not link to a later site. -/
def LooksNull (d : Draft) (unit position target : Nat) : Prop :=
  match d.encoding with
  | .absolute => False
  | .relative => target = position
  | .chained => target = position ∧ d.LastSite unit position

/-- What a reader has to answer for a position of a data unit. -/
def Answers (view : Container.UnitReader) (place : Nat) (target : Option Nat) : Prop :=
  ∃ site : UInt32, site.toNat = place ∧ ∃ found : Option UInt32,
    view.resolve site = .ok found ∧ found.map (·.toNat) = target

variable {d : Draft} {packed : PackedContainer} {unit last : Nat} {root : Option Reference}
  {image : LinkedUnit} {slots : List (Nat × Bytes)}

/-- The sites of a draft of chained sites come before a position exactly if its pointers do. -/
theorem lastSite_iff (valid : d.Valid) (encoded : d.EncodedIn (· = .chained))
    (linkage : Linkage d.endian root (Section.merge d.endian (d.sections unit)).1 (d.aliases unit)
      image (d.placements unit) last slots) (position : Nat) :
    d.LastSite unit position ↔
      ∀ q ∈ chainedPointers (pointersOf (d.placements unit) (d.aliases unit)),
        q.position.toNat ≤ position := by
  have hmerging := valid.merging unit
  constructor
  · intro hlast q hq
    obtain ⟨s, hs, hself, site, hsite, -, hposition⟩ :=
      linkage.exists_site_of_pointer hmerging (mem_chainedPointers.mp hq)
    obtain ⟨block, hblock, body, hbody, hin, rfl⟩ := mem_sections.mp hs
    rw [hposition]
    exact hlast block hblock body hbody hin hself site hsite
  · intro hall block hblock body hbody hin hself site hsite
    obtain ⟨p, hp, hnamed, hstands⟩ :=
      valid.exists_placed linkage hblock hbody hin (Or.inl hself)
    obtain ⟨x, hx⟩ := linkage.exists_sitePointer hmerging hp hstands hnamed hsite
    have hmem := hx.mem
    rw [encoded block hblock body hbody site hsite] at hmem
    have hle := hall x (mem_chainedPointers.mpr hmem)
    rw [hx.position] at hle
    exact hle

/-- What is linked can be opened, and every data unit is found. -/
theorem link_opens (valid : d.Valid) (linked : d.link = .ok packed) :
    ∃ r, Container.Reader.ofBytes packed.bytes = .ok r ∧ r.unitCount = d.units.length ∧
      ∀ unit u, d.units[unit]? = some u → ∃ image last slots view, Linkage d.endian u.root
        (Section.merge d.endian (d.sections unit)).1 (d.aliases unit) image (d.placements unit) last
        slots ∧ r.unit? unit = some view ∧ view.bytes = image.bytes ∧
        view.header = .ofBytes d.endian image.bytes ∧ view.endian = d.endian ∧
        view.pointers = d.encoding ∧ Container.headerSize + view.bytes.length < wordLimit := by
  obtain ⟨images, hjoined, hcount, himages⟩ := link_joined linked
  have hsizes : ∀ image ∈ images, Container.unitHeaderSize ≤ image.bytes.length := by
    intro image hmem
    obtain ⟨unit, himage⟩ := List.mem_iff_getElem?.mp hmem
    have hunit : unit < d.units.length := hcount ▸ (List.getElem?_eq_some_iff.mp himage).1
    obtain ⟨image', himage', hsections⟩ := himages unit _ (List.getElem?_eq_getElem hunit)
    rw [himage] at himage'
    cases himage'
    obtain ⟨last, slots, hlinkage⟩ := ofSections_linkage valid hsections
    rw [hlinkage.length_bytes (valid.merging unit).coherent]
    exact hlinkage.laid.le
  obtain ⟨r, hr, hunitCount, hunits⟩ := hjoined.opens hsizes
  refine ⟨r, hr, hunitCount.trans hcount, fun unit u hu => ?_⟩
  obtain ⟨image, himage, hsections⟩ := himages unit u hu
  obtain ⟨last, slots, hlinkage⟩ := ofSections_linkage valid hsections
  obtain ⟨record, hview⟩ := hunits unit image himage
  exact ⟨image, last, slots, _, hlinkage, hview, rfl, rfl, rfl, rfl, hjoined.length_lt himage⟩

/-- A pointer looks like a null reference exactly if its site does. -/
theorem looksNull_iff (valid : d.Valid) (encoded : d.EncodedIn (· = d.encoding))
    (linkage : Linkage d.endian root (Section.merge d.endian (d.sections unit)).1 (d.aliases unit)
      image (d.placements unit) last slots) {s : Section} {site : Site} {x : Pointer}
    (hx : Linkage.SitePointer (d.placements unit) (d.aliases unit) image d.endian s site x) :
    x.LooksNull d.encoding (pointersOf (d.placements unit) (d.aliases unit)) ↔
      d.LooksNull unit (d.placeIn unit s.reference + site.offset) (d.placeIn unit site.target) := by
  have hself : x.target = x.position ↔
      d.placeIn unit site.target = d.placeIn unit s.reference + site.offset := by
    rw [← UInt32.toNat_inj, hx.position, hx.target]
    rfl
  unfold Pointer.LooksNull LooksNull
  cases hencoding : d.encoding with
  | absolute =>
    have hbehind := hx.behindHeader
    simp only [iff_false]
    intro hzero
    rw [hzero] at hbehind
    exact absurd hbehind (by decide)
  | relative => exact hself
  | chained =>
    rw [hencoding] at encoded
    have hlast := lastSite_iff valid encoded linkage x.position.toNat
    rw [hx.position] at hlast
    rw [hself, hx.position]
    exact and_congr_right fun _ => hlast.symm

/-- A reader answers with the target of a site, unless the site looks like a null reference. -/
theorem site_answers (valid : d.Valid) (encoded : d.EncodedIn (· = d.encoding))
    (linkage : Linkage d.endian root (Section.merge d.endian (d.sections unit)).1 (d.aliases unit)
      image (d.placements unit) last slots) {view : Container.UnitReader}
    (bytes : view.bytes = image.bytes) (endian : view.endian = d.endian)
    (pointers : view.pointers = d.encoding) {s : Section} {site : Site} {x : Pointer}
    (hx : Linkage.SitePointer (d.placements unit) (d.aliases unit) image d.endian s site x)
    (mode : site.encoding = d.encoding) :
    (¬ d.LooksNull unit (d.placeIn unit s.reference + site.offset) (d.placeIn unit site.target) →
      Answers view (d.placeIn unit s.reference + site.offset) (some (d.placeIn unit site.target))) ∧
    (d.LooksNull unit (d.placeIn unit s.reference + site.offset) (d.placeIn unit site.target) →
      Answers view (d.placeIn unit s.reference + site.offset) none) := by
  obtain ⟨slot, hat, hof⟩ := hx.slot
  rw [mode, ← pointers, ← endian] at hof
  rw [← bytes] at hat
  have hresolve := view.resolve_slot (bytes.symm ▸ hx.inside) hat hof
  rw [pointers, looksNull_iff valid encoded linkage hx] at hresolve
  refine ⟨fun hsome => ?_, fun hnull => ?_⟩
  · exact ⟨x.position, hx.position, _, hresolve.2 hsome, congrArg some hx.target⟩
  · exact ⟨x.position, hx.position, _, hresolve.1 hnull, rfl⟩

/-- What a block holds apart from its sites stands in the data unit. -/
theorem HoldsAt.hasAt {bytes : Bytes} {block : Block} {body : Body} {offset : Nat} {b : Bytes}
    (h : d.HoldsAt body offset b) (inside : body.start + body.size ≤ d.buffer.length)
    (stands : (d.sectionOf block body).StandsAt d.endian bytes (d.placeIn unit)) :
    bytes.HasAt (d.placeIn unit block.reference + offset) b := by
  have hsize := length_sectionOf block inside
  have hoffset := h.inside
  intro i hi
  have houtside : (d.sectionOf block body).Outside (offset + i) := by
    intro site hsite
    rcases h.apart site hsite with hbefore | hbehind <;> omega
  have hcontent := stands.content (offset + i) (by omega) houtside
  rw [getElem?_sectionOf d block body (by omega)] at hcontent
  rw [Nat.add_assoc, ← h.content i hi, Nat.add_assoc]
  exact hcontent

/-- A reader finds no reference where a data unit holds zeros. -/
theorem zeros_answer {view : Container.UnitReader} {place : Nat}
    (zeros : view.bytes.HasAt place (Bytes.zeros Pointer.slotSize))
    (fits : view.bytes.length < wordLimit) : Answers view place none := by
  have hinside := zeros.le_length (by decide)
  rw [Bytes.length_zeros] at hinside
  have hsite : (UInt32.ofNat place).toNat = place :=
    UInt32.toNat_ofNat_of_lt' (show place < wordLimit by omega)
  exact ⟨_, hsite, none, Container.UnitReader.resolve_zeros (by rwa [hsite]) (by rwa [hsite]), rfl⟩

/-- In a draft whose references are all written in its own encoding, a reader finds each of them at
its final place, except where it looks like a null reference, and finds none where a null reference was
written. -/
theorem link_resolves {platform : Platform} {encoding : PointerEncoding} {supply : Supply}
    {ops : List Operation} (run : Run (blank platform encoding supply) ops d)
    (plain : ∀ op ∈ ops, op.Plain) (linked : d.link = .ok packed) :
    ∃ r, Container.Reader.ofBytes packed.bytes = .ok r ∧ ∀ unit < d.units.length,
      ∃ view, r.unit? unit = some view ∧
        ∀ block ∈ d.blocks, ∀ body ∈ block.body, body.unit = unit →
          (d.Survives unit block.reference ∨ Section.DigestsTell d.endian (d.sections unit)) →
          (∀ site ∈ body.sites,
            let position := d.placeIn unit block.reference + site.offset
            let target := d.placeIn unit site.target
            (¬ d.LooksNull unit position target → Answers view position (some target)) ∧
              (d.LooksNull unit position target → Answers view position none)) ∧
          ∀ offset, NullWritten (blank platform encoding supply) ops d block.reference offset →
            Answers view (d.placeIn unit block.reference + offset) none := by
  have hblank := blank_valid platform encoding supply
  have hvalid := hblank.moves run.moves
  have hmoves := run.moves_of_plain plain
  have hencoding : d.encoding = encoding := hmoves.encoding_eq rfl
  have hencoded : d.EncodedIn (· = d.encoding) := by
    rw [hencoding]
    exact hmoves.encodedIn fun block hblock => absurd hblock List.not_mem_nil
  obtain ⟨r, hr, -, hunits⟩ := link_opens hvalid linked
  refine ⟨r, hr, fun unit hunit => ?_⟩
  obtain ⟨image, last, slots, view, hlinkage, hview, hbytes, -, hendian, hpointers, hlength⟩ :=
    hunits unit _ (List.getElem?_eq_getElem hunit)
  have hmerging := hvalid.merging unit
  refine ⟨view, hview, fun block hblock body hbody hin hstood => ?_⟩
  obtain ⟨p, hp, hnamed, hstands⟩ := hvalid.exists_placed hlinkage hblock hbody hin hstood
  refine ⟨fun site hsite => ?_, fun offset hnull => ?_⟩
  · obtain ⟨x, hx⟩ := hlinkage.exists_sitePointer hmerging hp hstands hnamed hsite
    exact site_answers hvalid hencoded hlinkage hbytes hendian hpointers hx
      (hencoded block hblock body hbody site hsite)
  · obtain ⟨block', hblock', href, body', hbody', hzeros⟩ := hnull.slot hblank
    obtain rfl := hvalid.eq_of_reference hblock' hblock href
    cases Option.some.inj (hbody.symm.trans hbody')
    have hs := mem_sections.mpr ⟨block', hblock, body, hbody, hin, rfl⟩
    have hfits : view.bytes.length < wordLimit := by omega
    have hstandsAt := hlinkage.standsAt hmerging (hvalid.coherent unit) hp hs hstands hnamed
    rw [← hbytes] at hstandsAt
    exact zeros_answer (hzeros.hasAt (hvalid.bodies _ hblock _ hbody).inside hstandsAt) hfits

/-- What the twins hold is read back, both references of the third block and the null reference between
them. -/
theorem link_resolves_twins : ∃ d packed r view, twins .chained = some d ∧ d.link = .ok packed ∧
    Container.Reader.ofBytes packed.bytes = .ok r ∧ r.unit? 0 = some view ∧
    Answers view (d.placeIn 0 ⟨3⟩) (some (d.placeIn 0 ⟨1⟩)) ∧
    Answers view (d.placeIn 0 ⟨3⟩ + 8) none ∧
    Answers view (d.placeIn 0 ⟨3⟩ + 16) (some (d.placeIn 0 ⟨2⟩)) := by
  have hcheck : ((blank .win64 .chained .full).after? (twinOperations.take 14)).any (fun d₂ =>
      d₂.active?.any (fun opened => opened.2.1.reference = ⟨3⟩ && opened.2.2.size = 16) &&
        (d₂.after? (twinOperations.drop 14)).any fun d =>
          d.link.toOption.isSome && 0 < d.units.length &&
            Section.digestsTell d.endian 2 (d.sections 0) && d.encoding = .chained &&
            d.placeIn 0 ⟨1⟩ ≠ d.placeIn 0 ⟨3⟩ && d.placeIn 0 ⟨2⟩ ≠ d.placeIn 0 ⟨3⟩ + 16 &&
            d.blocks.any fun block => block.reference = ⟨3⟩ && block.body.any fun body =>
              body.unit = 0 && body.sites = [⟨0, ⟨1⟩, .chained⟩, ⟨16, ⟨2⟩, .chained⟩]) = true := by
    decide +kernel
  simp only [Option.any_eq_true, Bool.and_eq_true, decide_eq_true_eq, List.any_eq_true,
    Option.isSome_iff_exists, Prod.exists, ne_eq, toOption_eq_some] at hcheck
  obtain ⟨d₂, hd₂, ⟨index, block₂, body₂, hactive, hopen, hsize⟩, d, hd, ⟨⟨⟨⟨⟨⟨packed, hpacked⟩, hunits⟩, htell⟩,
    hencoding⟩, hfirst⟩, hsecond⟩, block, hblock, hreference, body, hbody, hunit, hsites⟩ := hcheck
  change after? _ (twinOperations.take 13 ++ [.write .nullReference]) = _ at hd₂
  have hnull : NullWritten (blank .win64 .chained .full) twinOperations d block₂.reference 8 :=
    NullWritten.of_after? hd₂ hd hactive hsize
  have hd' : twins .chained = some d := by
    have hsplit := after?_append (blank .win64 .chained .full)
      (twinOperations.take 13 ++ [.write .nullReference]) (twinOperations.drop 14)
    rw [hd₂] at hsplit
    exact hsplit.trans hd
  obtain ⟨r, hr, hreads⟩ := link_resolves (run_of_after? hd') (by decide) hpacked
  obtain ⟨view, hview, hblocks⟩ := hreads 0 hunits
  obtain ⟨hfound, hnone⟩ := hblocks block hblock body hbody hunit
    (Or.inr (Section.digestsTell_of_check htell))
  rw [hreference, hsites] at hfound
  refine ⟨d, packed, r, view, hd', hpacked, hr, hview, ?_, ?_, ?_⟩
  · refine (hfound ⟨0, ⟨1⟩, .chained⟩ (by decide)).1 ?_
    rw [LooksNull, hencoding]
    exact fun hnull => hfirst hnull.1
  · rw [← hreference]
    exact hnone 8 (by rwa [hreference, ← hopen])
  · refine (hfound ⟨16, ⟨2⟩, .chained⟩ (by decide)).1 ?_
    rw [LooksNull, hencoding]
    exact fun hnull => hsecond hnull.1

/-- A block that refers to itself at its start. -/
def selfReferring (encoding : PointerEncoding) : Option Draft :=
  (blank .win64 encoding .full).after?
    [.registerUnit .empty, .openUnit 0, .newBlock 8 none, .openBlock ⟨1⟩, .writeReference ⟨1⟩,
      .closeBlock, .closeUnit]

/-- Whether a block that refers to itself is packed and read back without its reference. -/
def LosesReference (encoding : PointerEncoding) : Prop :=
  ∃ d packed r view, selfReferring encoding = some d ∧ d.link = .ok packed ∧
    Container.Reader.ofBytes packed.bytes = .ok r ∧ r.unit? 0 = some view ∧
    (d.sections 0).map (·.sites) = [[⟨0, ⟨1⟩, encoding⟩]] ∧ d.placeIn 0 ⟨1⟩ = 16 ∧
    view.resolve 16 = .ok none

theorem losesReference_of_check {encoding : PointerEncoding}
    (h : (selfReferring encoding).any (fun d => d.link.toOption.any fun packed =>
      (Container.Reader.ofBytes packed.bytes).toOption.any fun r => (r.unit? 0).any fun view =>
        (d.sections 0).map (·.sites) = [[⟨0, ⟨1⟩, encoding⟩]] && d.placeIn 0 ⟨1⟩ = 16
          && view.resolve 16 = .ok none) = true) : LosesReference encoding := by
  simp only [Option.any_eq_true, Bool.and_eq_true, decide_eq_true_eq] at h
  obtain ⟨d, hd, packed, hpacked, r, hr, view, hview, ⟨hsites, hplace⟩, hresolve⟩ := h
  exact ⟨d, packed, r, view, hd, toOption_eq_some.mp hpacked, toOption_eq_some.mp hr, hview, hsites,
    hplace, hresolve⟩

/-- A reader finds no reference where a block refers to itself, be it by a distance or in a chain. -/
theorem exists_lost_reference : LosesReference .relative ∧ LosesReference .chained :=
  ⟨losesReference_of_check (by decide +kernel), losesReference_of_check (by decide +kernel)⟩

end Draft

end ObjectPack
