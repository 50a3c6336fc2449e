import ObjectPack.Proofs.Link.Join
import ObjectPack.Proofs.Link.Unit

/-!
# Linking keeps the graph of blocks

The blocks of a data unit form a graph: sites lead to blocks and to marks.  Linking merges, places and
patches; what is shown here is that afterwards there is one place for every reference of the unit such
that each block stands at its place, merged blocks included, with its bytes, its marks and with sites
that lead to the places of their targets (`Draft.PlacedIn`).  For merged blocks this rests on digests
that tell different sections apart.
-/

namespace ObjectPack

open Outcome Placement

/-- Whether a section stands in a data unit where `place` says, with sites that lead to the places of
their targets. -/
structure Section.StandsAt (e : Endian) (bytes : Bytes) (place : Reference → Nat) (s : Section) :
    Prop where
  inside : place s.reference + s.content.length ≤ bytes.length
  content : ∀ i < s.content.length, s.Outside i → bytes[place s.reference + i]? = s.content[i]?
  sites : ∀ site ∈ s.sites, site.encoding.Refers e
    ((bytes.drop (place s.reference + site.offset)).take Pointer.slotSize)
    (place s.reference + site.offset) (place site.target)
  marks : ∀ mark ∈ s.marks, place mark.reference = place s.reference + mark.offset
  aligned : s.alignment ∣ place s.reference

/-! ### Sections -/

namespace Linkage

variable {e : Endian} {root : Option Reference} {originals kept : List Section} {aliases : Aliases}
  {image : LinkedUnit} {placements : List Placement} {last : Nat} {slots : List (Nat × Bytes)}

/-- Sites refer to what has a place. -/
theorem targetPlaced (h : Linkage e root kept aliases image placements last slots)
    (merging : Section.Merging originals kept aliases) {p : Placement} (hp : p ∈ placements)
    {s : Section} (stands : p.placed.StandsFor aliases.resolve s) {site : Site}
    (hsite : site ∈ s.sites) : Placed placements aliases site.target := by
  have hmoved : { site with target := aliases.resolve site.target } ∈ p.placed.sites := by
    rw [stands.sites]
    exact List.mem_map_of_mem hsite
  have hplaced := h.targetsPlaced p hp _ hmoved
  unfold Placed at hplaced ⊢
  rwa [merging.resolve_resolve] at hplaced

/-- A section stands where the one stands that stands in for it. -/
theorem standsAt (h : Linkage e root kept aliases image placements last slots)
    (merging : Section.Merging originals kept aliases) (coherent : Section.Coherent originals)
    {p : Placement} (hp : p ∈ placements) {s : Section} (hs : s ∈ originals)
    (stands : p.placed.StandsFor aliases.resolve s)
    (named : p.placed.reference = aliases.resolve s.reference) :
    s.StandsAt e image.bytes (placeOf placements aliases) := by
  have hkept := merging.coherent
  have hplace := h.place_section hkept hp named.symm
  exact
    { inside := by
        rw [hplace, h.length_bytes hkept, ← stands.size]
        exact h.laid.stop_le p hp
      content := by
        intro i hi outside
        rw [hplace, h.content hkept hp (stands.size ▸ hi) ((stands.outside i).mpr outside)]
        exact stands.content i outside
      sites := by
        intro site hsite
        have hmoved : { site with target := aliases.resolve site.target } ∈ p.placed.sites := by
          rw [stands.sites]
          exact List.mem_map_of_mem hsite
        obtain ⟨slot, hat, hof⟩ := h.slot hkept hp hmoved
        have hrefers := hof.refers
        have hslice := hat.slice
        have htarget : placeOf placements aliases (aliases.resolve site.target)
            = placeOf placements aliases site.target := by
          rw [placeOf, merging.resolve_resolve, ← placeOf]
        rw [h.position_pointerOf hkept hp hmoved, h.target_pointerOf hkept hp hmoved, htarget] at hrefers
        rw [hof.length] at hslice
        rw [hplace, hslice]
        exact hrefers
      marks := by
        intro mark hmark
        rw [hplace]
        exact h.place_mark hkept hp (stands.marks.symm.subset hmark)
          (merging.resolve_mark coherent hs hmark)
      aligned := by
        rw [hplace, ← stands.alignment]
        exact h.laid.dvd p hp }

/-- A reference that has a place means something in the data unit. -/
theorem exists_name (h : Linkage e root kept aliases image placements last slots)
    (merging : Section.Merging originals kept aliases) {r : Reference}
    (hr : Placed placements aliases r) : ∃ s ∈ originals, r ∈ s.names :=
  merging.exists_name (h.targets_references ▸ hr)

/-- The header that is read out of the unit. -/
theorem header_eq (h : Linkage e root kept aliases image placements last slots)
    (coherent : Section.Coherent kept) :
    Container.UnitHeader.ofBytes e image.bytes = headerOf placements aliases root := by
  have hslice := (h.header_hasAt coherent).slice
  rw [List.drop_zero] at hslice
  have hbytes := List.take_append_drop
    ((headerOf placements aliases root).toBytes e).length image.bytes
  rw [hslice] at hbytes
  rw [← hbytes, Container.UnitHeader.ofBytes_toBytes]

/-- The root that the header of the unit names. -/
theorem header_root (h : Linkage e root kept aliases image placements last slots)
    (coherent : Section.Coherent kept) :
    (Container.UnitHeader.ofBytes e image.bytes).root
      = root.elim Container.noRoot fun r => UInt32.ofNat (placeOf placements aliases r) :=
  congrArg (·.root) (h.header_eq coherent)

end Linkage

/-! ### Blocks -/

namespace Draft

/-- Whether a reference names a block that was opened in a data unit, or a mark in one. -/
def MeansIn (d : Draft) (unit : Nat) (r : Reference) : Prop :=
  ∃ block ∈ d.blocks, ∃ body ∈ block.body, body.unit = unit ∧
    (block.reference = r ∨ ∃ mark ∈ body.marks, mark.reference = r)

/-- Whether a data unit of a draft stands in some bytes where `place` says: its blocks, with sites that
lead to the places of their targets, and its root. -/
structure PlacedIn (d : Draft) (unit : Nat) (bytes : Bytes) (place : Reference → Nat) : Prop where
  blocks : ∀ block ∈ d.blocks, ∀ body ∈ block.body, body.unit = unit →
    (d.sectionOf block body).StandsAt d.endian bytes place
  targets : ∀ block ∈ d.blocks, ∀ body ∈ block.body, body.unit = unit →
    ∀ site ∈ body.sites, d.MeansIn unit site.target
  noRoot : ∀ u, d.units[unit]? = some u → u.root = none →
    (Container.UnitHeader.ofBytes d.endian bytes).root = Container.noRoot
  root : ∀ u, d.units[unit]? = some u → ∀ r, u.root = some r → d.MeansIn unit r ∧
    (Container.UnitHeader.ofBytes d.endian bytes).root.toNat = place r

theorem meansIn_of_name {d : Draft} {unit : Nat} {r : Reference} {s : Section}
    (hs : s ∈ d.sections unit) (hr : r ∈ s.names) : d.MeansIn unit r := by
  obtain ⟨block, hblock, body, hbody, hunit, rfl⟩ := mem_sections.mp hs
  refine ⟨block, hblock, body, hbody, hunit, ?_⟩
  rcases List.mem_cons.mp hr with rfl | hmark
  · exact Or.inl rfl
  · exact Or.inr (List.mem_map.mp hmark)

/-- What stands in for the merged blocks of a data unit. -/
def aliases (d : Draft) (unit : Nat) : Aliases := (Section.merge d.endian (d.sections unit)).2

/-- The blocks of a data unit that remain after merging, at their places. -/
def placements (d : Draft) (unit : Nat) : List Placement :=
  match Placement.place unit Container.unitHeaderSize
    (Section.merge d.endian (d.sections unit)).1 with
  | .ok (placements, _) => placements
  | .error _ => []

/-- The final place of a reference in a data unit: that of its block, of the block that stands in for
it, or of its mark. -/
def placeIn (d : Draft) (unit : Nat) (reference : Reference) : Nat :=
  placeOf (d.placements unit) (d.aliases unit) reference

/-- What a successful linking has done. -/
theorem link_joined {d : Draft} {packed : PackedContainer} (h : d.link = .ok packed) :
    ∃ images, Joined d images packed ∧ images.length = d.units.length ∧
      ∀ (unit : Nat) (u : DraftUnit), d.units[unit]? = some u → ∃ image,
        images[unit]? = some image ∧
        LinkedUnit.ofSections d.endian unit u.root (d.sections unit) = .ok image := by
  unfold link at h
  simp only [bind_eq_ok] at h
  obtain ⟨_, -, images, himages, hjoin⟩ := h
  have hsteps := mapM_eq_ok himages
  have hcount : images.length = d.units.length := by
    rw [← hsteps.length_eq, List.length_zipIdx]
  refine ⟨images, joinUnits_joined hcount hjoin, hcount, fun unit u hu => ?_⟩
  obtain ⟨hunit, rfl⟩ := List.getElem?_eq_some_iff.mp hu
  have hstep := hsteps.get (List.length_zipIdx.symm ▸ hunit) (hcount.symm ▸ hunit)
  rw [List.get_eq_getElem, List.get_eq_getElem, List.getElem_zipIdx, Nat.zero_add] at hstep
  exact ⟨_, List.getElem?_eq_getElem _, hstep⟩

theorem Valid.merging {d : Draft} (valid : d.Valid) (unit : Nat) :
    Section.Merging (d.sections unit) (Section.merge d.endian (d.sections unit)).1
      (d.aliases unit) :=
  Section.merge_merging (valid.coherent unit) d.endian

theorem ofSections_linkage {d : Draft} (valid : d.Valid) {unit : Nat} {root : Option Reference}
    {image : LinkedUnit}
    (h : LinkedUnit.ofSections d.endian unit root (d.sections unit) = .ok image) :
    ∃ last slots, Linkage d.endian root (Section.merge d.endian (d.sections unit)).1
      (d.aliases unit) image (d.placements unit) last slots := by
  obtain ⟨placements, last, slots, hplace, hlinkage⟩ :=
    LinkedUnit.ofSections_linkage (valid.merging unit).coherent.wellFormed h
  have hplacements : d.placements unit = placements := by
    rw [Draft.placements, hplace]
  exact ⟨last, slots, hplacements ▸ hlinkage⟩

/-- Whether no other block stands in for that of a reference. -/
def Survives (d : Draft) (unit : Nat) (reference : Reference) : Prop :=
  (d.aliases unit).resolve reference = reference

/-- The blocks of a data unit that survive, in the order of their registration. -/
def survivors (d : Draft) (unit : Nat) : List Section :=
  (d.sections unit).filter fun s => (d.aliases unit).resolve s.reference = s.reference

theorem mem_survivors {d : Draft} {unit : Nat} {s : Section} :
    s ∈ d.survivors unit ↔ s ∈ d.sections unit ∧ d.Survives unit s.reference := by
  unfold survivors Survives
  rw [List.mem_filter, decide_eq_true_iff]

/-- What has been placed are the blocks that survive, in their order. -/
theorem Valid.survivors_placed {d : Draft} (valid : d.Valid) {unit last : Nat}
    {root : Option Reference} {image : LinkedUnit} {slots : List (Nat × Bytes)}
    (linkage : Linkage d.endian root (Section.merge d.endian (d.sections unit)).1 (d.aliases unit)
      image (d.placements unit) last slots) :
    List.Forall₂ (fun s p => p ∈ d.placements unit ∧ d.placeIn unit s.reference = p.start ∧
      p.placed.StandsFor (d.aliases unit).resolve s) (d.survivors unit) (d.placements unit) := by
  have hmerging := valid.merging unit
  have hcoherent := valid.coherent unit
  have hreferences : (d.survivors unit).map (·.reference)
      = (d.placements unit).map fun p => p.placed.reference := by
    calc
      _ = ((d.sections unit).map (·.reference)).filter
          fun r => (d.aliases unit).resolve r = r := List.filter_map.symm
      _ = (Section.merge d.endian (d.sections unit)).1.map (·.reference) :=
        (hmerging.references_eq hcoherent).symm
      _ = _ := by rw [← linkage.placed, List.map_map]; rfl
  have hpaired : List.Forall₂ (fun s p => s.reference = p.placed.reference) (d.survivors unit)
      (d.placements unit) := by
    rw [← List.forall₂_eq_eq_eq, List.forall₂_map_left_iff, List.forall₂_map_right_iff]
      at hreferences
    exact hreferences
  refine List.forall₂_iff_get.mpr ⟨hpaired.length_eq, fun i hs hp => ?_⟩
  have href := hpaired.get hs hp
  have hplaced := List.get_mem (d.placements unit) ⟨i, hp⟩
  obtain ⟨hself, s, hs', href', hstands⟩ := hmerging.survivors _ (linkage.mem_kept hplaced)
  have hsection := (mem_survivors.mp (List.get_mem (d.survivors unit) ⟨i, hs⟩)).1
  obtain rfl := Section.eq_of_reference_eq hcoherent hs' hsection (href'.trans href.symm)
  refine ⟨hplaced, ?_, hstands⟩
  rw [placeIn, href]
  exact linkage.place_section hmerging.coherent hplaced hself

/-- A block has one that stands in for it if it survives, and every block has one if digests tell. -/
theorem Valid.exists_standIn {d : Draft} (valid : d.Valid) {unit : Nat} {s : Section}
    (hs : s ∈ d.sections unit) (h : d.Survives unit s.reference ∨
      Section.DigestsTell d.endian (d.sections unit)) :
    ∃ k ∈ (Section.merge d.endian (d.sections unit)).1,
      k.reference = (d.aliases unit).resolve s.reference ∧
      k.StandsFor (d.aliases unit).resolve s := by
  rcases h with survives | tell
  · exact (valid.merging unit).standsIn_of_kept (valid.coherent unit) hs survives
  · exact Section.merge_complete (valid.coherent unit) tell s hs

/-- A block stands where the one stands that stands in for it. -/
theorem Valid.exists_placed {d : Draft} (valid : d.Valid) {unit last : Nat} {root : Option Reference}
    {image : LinkedUnit} {slots : List (Nat × Bytes)}
    (linkage : Linkage d.endian root (Section.merge d.endian (d.sections unit)).1 (d.aliases unit)
      image (d.placements unit) last slots)
    {block : Block} (hblock : block ∈ d.blocks) {body : Body} (hbody : body ∈ block.body)
    (hin : body.unit = unit)
    (h : d.Survives unit block.reference ∨ Section.DigestsTell d.endian (d.sections unit)) :
    ∃ p ∈ d.placements unit, p.placed.reference = (d.aliases unit).resolve block.reference ∧
      p.placed.StandsFor (d.aliases unit).resolve (d.sectionOf block body) := by
  have hs := mem_sections.mpr ⟨block, hblock, body, hbody, hin, rfl⟩
  obtain ⟨k, hk, hnamed, hstands⟩ := valid.exists_standIn hs h
  obtain ⟨p, hp, rfl⟩ := linkage.exists_placement hk
  exact ⟨p, hp, hnamed, hstands⟩

end Draft

/-- The bytes of a data unit of a container. -/
def PackedContainer.unitBytes (packed : PackedContainer) (unit : Nat) : Bytes :=
  match packed.units[unit]? with
  | some u => (packed.bytes.drop u.offset).take u.size
  | none => []

theorem Joined.unitBytes {d : Draft} {images : List LinkedUnit} {packed : PackedContainer}
    (h : Joined d images packed) {unit : Nat} {image : LinkedUnit}
    (himage : images[unit]? = some image) : packed.unitBytes unit = image.bytes := by
  obtain ⟨u, hu, hsize, -, -, hat, -⟩ := h.unit unit image himage
  have hslice := hat.slice
  unfold PackedContainer.unitBytes
  rw [hu]
  rw [← hsize] at hslice
  exact hslice

namespace Draft

/-- What linking a valid draft makes of a data unit. -/
theorem Valid.placedIn {d : Draft} {packed : PackedContainer} {unit : Nat}
    (hvalid : d.Valid) (linked : d.link = .ok packed) (hunit : unit < d.units.length)
    (tell : Section.DigestsTell d.endian (d.sections unit)) :
    d.PlacedIn unit (packed.unitBytes unit) (d.placeIn unit) := by
  have hcoherent := hvalid.coherent unit
  have hmerging := hvalid.merging unit
  obtain ⟨images, hjoined, -, himages⟩ := link_joined linked
  obtain ⟨image, himage, hsections⟩ := himages unit _ (List.getElem?_eq_getElem hunit)
  obtain ⟨last, slots, hlinkage⟩ := ofSections_linkage hvalid hsections
  rw [hjoined.unitBytes himage]
  exact
    { blocks := by
        intro block hblock body hbody hin
        have hs := mem_sections.mpr ⟨block, hblock, body, hbody, hin, rfl⟩
        obtain ⟨p, hp, hnamed, hstands⟩ := hvalid.exists_placed hlinkage hblock hbody hin (Or.inr tell)
        exact hlinkage.standsAt hmerging hcoherent hp hs hstands hnamed
      targets := by
        intro block hblock body hbody hin site hsite
        obtain ⟨p, hp, -, hstands⟩ := hvalid.exists_placed hlinkage hblock hbody hin (Or.inr tell)
        obtain ⟨t, ht, hname⟩ := hlinkage.exists_name hmerging
          (hlinkage.targetPlaced hmerging hp hstands hsite)
        exact meansIn_of_name ht hname
      noRoot := by
        intro u hu hnone
        rw [List.getElem?_eq_getElem hunit] at hu
        cases hu
        rw [hlinkage.header_root hmerging.coherent, hnone]
        rfl
      root := by
        intro u hu r hr
        rw [List.getElem?_eq_getElem hunit] at hu
        cases hu
        have hplaced := hlinkage.rootPlaced r hr
        obtain ⟨s, hs, hname⟩ := hlinkage.exists_name hmerging hplaced
        refine ⟨meansIn_of_name hs hname, ?_⟩
        rw [hlinkage.header_root hmerging.coherent, hr]
        have hbounds := hlinkage.place_bounds hmerging.coherent hplaced
        exact UInt32.toNat_ofNat_of_lt' (Nat.lt_of_le_of_lt hbounds.2 hlinkage.fits) }

/-- Linking keeps the graph of blocks of every data unit. -/
theorem link_placedIn {d : Draft} {packed : PackedContainer} {unit : Nat}
    (reachable : d.Reachable) (linked : d.link = .ok packed) (hunit : unit < d.units.length)
    (tell : Section.DigestsTell d.endian (d.sections unit)) :
    d.PlacedIn unit (packed.unitBytes unit) (d.placeIn unit) :=
  reachable.valid.placedIn linked hunit tell

/-- The twins are merged, and all three blocks have their places. -/
theorem link_placedIn_twins : ∃ d packed, twins .chained = some d ∧ d.link = .ok packed ∧
    packed.units.map (·.merged) = [1] ∧ 0 < d.units.length ∧
    Section.DigestsTell d.endian (d.sections 0) ∧
    d.PlacedIn 0 (packed.unitBytes 0) (d.placeIn 0) := by
  have hcheck : (twins .chained).any (fun d => d.link.toOption.any (fun packed =>
      packed.units.map (·.merged) = [1]) && 0 < d.units.length
        && Section.digestsTell d.endian 2 (d.sections 0)) = true := by decide +kernel
  cases hd : twins .chained with
  | none =>
    rw [hd] at hcheck
    cases hcheck
  | some d =>
    simp only [hd, Option.any_some, Bool.and_eq_true, decide_eq_true_eq] at hcheck
    obtain ⟨⟨hlink, hunits⟩, htell⟩ := hcheck
    cases hpacked : d.link with
    | error failure =>
      rw [hpacked] at hlink
      cases hlink
    | ok packed =>
      rw [hpacked] at hlink
      have hdigests := Section.digestsTell_of_check htell
      exact ⟨d, packed, rfl, hpacked, of_decide_eq_true hlink, hunits, hdigests,
        link_placedIn (reachable_of_after? hd) hpacked hunits hdigests⟩

end Draft

end ObjectPack
