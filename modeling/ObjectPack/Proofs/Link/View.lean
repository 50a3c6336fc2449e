import ObjectPack.Proofs.Link.Read

/-!
# Drafts seen through a reader

A reader that opens what a draft is linked to finds there all that the draft holds: the content of the
blocks and their sites, the marks, and the roots of the data units (`Draft.link_views`).
-/

namespace ObjectPack.Draft

open Outcome Placement

variable {d : Draft} {packed : PackedContainer} {unit : Nat} {view : Container.UnitReader}

/-- Whether a reader finds in a data unit what a draft holds there. -/
structure Views (d : Draft) (unit : Nat) (view : Container.UnitReader) : Prop where
  endian : view.endian = d.endian
  fits : view.bytes.length < wordLimit
  holds : ∀ block ∈ d.blocks, ∀ body ∈ block.body, body.unit = unit → ∀ offset b,
    d.HoldsAt body offset b → view.bytes.HasAt (d.placeIn unit block.reference + offset) b
  sites : ∀ block ∈ d.blocks, ∀ body ∈ block.body, body.unit = unit → ∀ site ∈ body.sites,
    ¬ d.LooksNull unit (d.placeIn unit block.reference + site.offset) (d.placeIn unit site.target) →
    Answers view (d.placeIn unit block.reference + site.offset) (some (d.placeIn unit site.target))
  marks : ∀ block ∈ d.blocks, ∀ body ∈ block.body, body.unit = unit → ∀ mark ∈ body.marks,
    d.placeIn unit mark.reference = d.placeIn unit block.reference + mark.offset
  root : ∀ u, d.units[unit]? = some u → ∀ r, u.root = some r →
    ∃ root, view.root? = some root ∧ root.toNat = d.placeIn unit r

/-- A place that is no offset of a data unit is not told from no root, but no data unit is that large. -/
theorem root?_eq_some {root : Nat} (fits : Container.headerSize + root < wordLimit)
    (header : view.header.root = UInt32.ofNat root) :
    ∃ found, view.root? = some found ∧ found.toNat = root := by
  have hnat : (UInt32.ofNat root).toNat = root :=
    UInt32.toNat_ofNat_of_lt' (show root < wordLimit by omega)
  refine ⟨UInt32.ofNat root, ?_, hnat⟩
  unfold Container.UnitReader.root?
  rw [header, if_neg]
  intro hnone
  rw [hnone] at hnat
  rw [← hnat] at fits
  exact absurd fits (by decide)

/-- What a draft is linked to can be opened, and a reader finds in it what the draft holds, if digests
tell. -/
theorem link_views (valid : d.Valid) (encoded : d.EncodedIn (· = d.encoding))
    (tell : ∀ unit < d.units.length, Section.DigestsTell d.endian (d.sections unit))
    (linked : d.link = .ok packed) :
    ∃ r, Container.Reader.ofBytes packed.bytes = .ok r ∧ r.unitCount = d.units.length ∧
      ∀ unit < d.units.length, ∃ view, r.unit? unit = some view ∧ d.Views unit view := by
  obtain ⟨r, hr, hcount, hunits⟩ := link_opens valid linked
  refine ⟨r, hr, hcount, fun unit hunit => ?_⟩
  obtain ⟨image, last, slots, view, hlinkage, hview, hbytes, hheader, hendian, hpointers, hlength⟩ :=
    hunits unit _ (List.getElem?_eq_getElem hunit)
  have hmerging := valid.merging unit
  have hcoherent := valid.coherent unit
  refine ⟨view, hview, ?_⟩
  -- Every section stands in the view of its data unit, at the place of its block.
  have hstands : ∀ block ∈ d.blocks, ∀ body ∈ block.body, body.unit = unit →
      (d.sectionOf block body).StandsAt d.endian view.bytes (d.placeIn unit) := by
    intro block hblock body hbody hin
    have hs := mem_sections.mpr ⟨block, hblock, body, hbody, hin, rfl⟩
    obtain ⟨p, hp, hnamed, hfor⟩ :=
      valid.exists_placed hlinkage hblock hbody hin (Or.inr (tell unit hunit))
    rw [hbytes]
    exact hlinkage.standsAt hmerging hcoherent hp hs hfor hnamed
  refine
    { endian := hendian
      fits := by omega
      holds := ?_
      sites := ?_
      marks := ?_
      root := ?_ }
  · intro block hblock body hbody hin offset b hholds
    exact hholds.hasAt (valid.bodies block hblock body hbody).inside (hstands block hblock body hbody hin)
  · intro block hblock body hbody hin site hsite hsome
    obtain ⟨p, hp, hnamed, hfor⟩ :=
      valid.exists_placed hlinkage hblock hbody hin (Or.inr (tell unit hunit))
    obtain ⟨x, hx⟩ := hlinkage.exists_sitePointer hmerging hp hfor hnamed hsite
    exact (site_answers valid encoded hlinkage hbytes hendian hpointers hx
      (encoded block hblock body hbody site hsite)).1 hsome
  · intro block hblock body hbody hin mark hmark
    exact (hstands block hblock body hbody hin).marks mark hmark
  · intro u hu reference hroot
    rw [List.getElem?_eq_getElem hunit] at hu
    cases hu
    have hbounds := hlinkage.place_bounds hmerging.coherent (hlinkage.rootPlaced reference hroot)
    have hheader' := hlinkage.header_root hmerging.coherent
    rw [← hheader, hroot] at hheader'
    refine root?_eq_some ?_ hheader'
    rw [hbytes, hlinkage.length_bytes hmerging.coherent] at hlength
    show Container.headerSize + placeOf _ _ _ < _
    omega

end ObjectPack.Draft
