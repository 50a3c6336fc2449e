import Mathlib.Data.List.Nodup
import ObjectPack.Proofs.Link.Place
import ObjectPack.Proofs.Link.Slot
import ObjectPack.Proofs.Section.Merge

/-!
# Linking a data unit

Linking the sections of a data unit is taken apart once, into what has been placed where
(`LinkedUnit.ofSections_linkage`).  All that is shown of a linked unit follows from that: the content
of every placed section stands at its place except for the slots (`Linkage.content`), every slot holds
what its pointer says (`Linkage.slot`), and the unit opens with its header (`Linkage.header_hasAt`).
-/

namespace ObjectPack

open Outcome

namespace Placement

variable {placements : List Placement} {aliases : Aliases}

/-- The place of what a reference stands for, merged blocks included. -/
def placeOf (placements : List Placement) (aliases : Aliases) (reference : Reference) : Nat :=
  ((placements.flatMap targets).lookup (aliases.resolve reference)).getD 0

/-- The pointer of a site. -/
def pointerOf (placements : List Placement) (aliases : Aliases) (p : Placement) (site : Site) :
    Pointer × PointerEncoding :=
  (⟨UInt32.ofNat (p.start + site.offset), UInt32.ofNat (placeOf placements aliases site.target)⟩,
    site.encoding)

/-- The pointers of all sites. -/
def pointersOf (placements : List Placement) (aliases : Aliases) :
    List (Pointer × PointerEncoding) :=
  placements.flatMap fun p => p.placed.sites.map (p.pointerOf placements aliases)

/-- The header of a data unit. -/
def headerOf (placements : List Placement) (aliases : Aliases) (root : Option Reference) :
    Container.UnitHeader :=
  let chained := chainedPointers (pointersOf placements aliases)
  ⟨(chained.head?.map (·.position)).getD Container.noPointers, UInt32.ofNat chained.length,
    root.elim Container.noRoot fun reference => UInt32.ofNat (placeOf placements aliases reference)⟩

/-- Whether a reference has a place. -/
def Placed (placements : List Placement) (aliases : Aliases) (reference : Reference) : Prop :=
  aliases.resolve reference ∈ (placements.flatMap targets).map Prod.fst

/-- The names of placed sections have places. -/
theorem targets_names (placements : List Placement) :
    (placements.flatMap targets).map Prod.fst = (placements.map (·.placed)).flatMap Section.names := by
  rw [List.flatMap_map, List.map_flatMap]
  refine List.flatMap_congr fun p _ => ?_
  rw [targets, List.map_cons, List.map_map]
  rfl

theorem findTarget_eq_ok {targets : List (Reference × Nat)} {r : Reference} {place : Nat} :
    findTarget targets r = .ok place ↔ targets.lookup r = some place := by
  unfold findTarget
  cases targets.lookup r with
  | none =>
    constructor <;> intro h <;> cases h
  | some found =>
    constructor <;> intro h <;> cases h <;> rfl

/-- A place that is found is that of the reference. -/
theorem place_of_found {r : Reference} {place : Nat}
    (h : findTarget (placements.flatMap targets) (aliases.resolve r) = .ok place) :
    place = placeOf placements aliases r ∧ Placed placements aliases r := by
  rw [findTarget_eq_ok] at h
  refine ⟨?_, ?_⟩
  · rw [placeOf, h]
    rfl
  · unfold Placed
    exact List.mem_map_of_mem (mem_of_lookup h)

/-- The pointers of a placed section, when all its targets have places. -/
theorem pointers_eq_ok {p : Placement} {found : List (Pointer × PointerEncoding)}
    (h : p.pointers (placements.flatMap targets) aliases = .ok found) :
    found = p.placed.sites.map (p.pointerOf placements aliases) ∧
      ∀ site ∈ p.placed.sites, Placed placements aliases site.target := by
  unfold pointers at h
  refine ⟨?_, ?_⟩
  · refine mapM_eq_map h fun site _ x hx => ?_
    simp only [bind_eq_ok, pure_eq_ok] at hx
    obtain ⟨place, hplace, rfl⟩ := hx
    rw [(place_of_found hplace).1]
    rfl
  · intro site hsite
    obtain ⟨x, hx⟩ := exists_ok_of_mapM h hsite
    simp only [bind_eq_ok] at hx
    obtain ⟨place, hplace, -⟩ := hx
    exact (place_of_found hplace).2

/-- The pointers of all placed sections. -/
theorem flatten_pointers {ε : Type} {found : List (List (Pointer × PointerEncoding))}
    (h : placements.mapM (fun p => (liftM (p.pointers (placements.flatMap targets) aliases) :
      Except (Failure ε) _)) = .ok found) : found.flatten = pointersOf placements aliases := by
  rw [mapM_eq_map h fun p _ x hx => (pointers_eq_ok (lift_eq_ok.mp hx)).1, pointersOf, List.flatMap_def]

end Placement

/-! ### What has been placed where -/

open Placement

/-- How a data unit has been linked: the placements, the position behind the last, and the slots of
the chain. -/
structure Linkage (e : Endian) (root : Option Reference) (kept : List Section) (aliases : Aliases)
    (image : LinkedUnit) (placements : List Placement) (last : Nat)
    (slots : List (Nat × Bytes)) : Prop where
  placed : placements.map (·.placed) = kept
  laid : Laid Container.unitHeaderSize placements last
  fits : last < wordLimit
  targetsPlaced : ∀ p ∈ placements, ∀ site ∈ p.placed.sites, Placed placements aliases site.target
  rootPlaced : ∀ reference ∈ root, Placed placements aliases reference
  chain : chainedSlots e (chainedPointers (pointersOf placements aliases)) = .ok slots
  bytes : image.bytes = patchAll (fill placements ((headerOf placements aliases root).toBytes e))
    ((pointersOf placements aliases).filterMap (plainSlot? e) ++ slots)

/-- What a successful linking of sections has done. -/
theorem LinkedUnit.ofSections_linkage {e : Endian} {unit : Nat} {root : Option Reference}
    {sections : List Section} {image : LinkedUnit}
    (wellFormed : ∀ s ∈ (Section.merge e sections).1, s.WellFormed)
    (h : ofSections e unit root sections = .ok image) :
    ∃ placements last slots,
      Placement.place unit Container.unitHeaderSize (Section.merge e sections).1
        = .ok (placements, last) ∧
      Linkage e root (Section.merge e sections).1 (Section.merge e sections).2 image placements last
        slots := by
  unfold ofSections at h
  generalize Section.merge e sections = merged at wellFormed h ⊢
  obtain ⟨kept, aliases⟩ := merged
  simp only [bind_eq_ok, mapError_eq_ok, Prod.exists] at h
  obtain ⟨placements, last, hplace, found, hfound, slots, hslots, h⟩ := h
  obtain ⟨hplaced, hlaid, hlast⟩ := place_laid wellFormed hplace
  rw [flatten_pointers hfound] at hslots h
  -- Without a root nothing is looked up.
  have hroot : (∀ reference ∈ root, Placed placements aliases reference) ∧
      image.bytes = patchAll (fill placements ((headerOf placements aliases root).toBytes e))
        ((pointersOf placements aliases).filterMap (plainSlot? e) ++ slots) := by
    cases root with
    | none =>
      cases h
      exact ⟨fun reference hreference => absurd hreference (Option.not_mem_none _), rfl⟩
    | some reference =>
      simp only [bind_eq_ok, lift_eq_ok, pure_eq_ok] at h
      obtain ⟨place, hfind, _, rfl, rfl⟩ := h
      obtain ⟨rfl, hmem⟩ := place_of_found hfind
      refine ⟨?_, rfl⟩
      rintro _ ⟨⟩
      exact hmem
  exact ⟨placements, last, slots, hplace,
    { placed := hplaced
      laid := hlaid
      fits := hlast
      targetsPlaced := fun p hp => by
        obtain ⟨x, hx⟩ := exists_ok_of_mapM hfound hp
        exact (pointers_eq_ok (lift_eq_ok.mp hx)).2
      rootPlaced := hroot.1
      chain := hslots
      bytes := hroot.2 }⟩

namespace Linkage

variable {e : Endian} {root : Option Reference} {kept : List Section} {aliases : Aliases}
  {image : LinkedUnit} {placements : List Placement} {last : Nat} {slots : List (Nat × Bytes)}

theorem mem_kept (h : Linkage e root kept aliases image placements last slots) {p : Placement}
    (hp : p ∈ placements) : p.placed ∈ kept := h.placed ▸ List.mem_map_of_mem hp

theorem exists_placement (h : Linkage e root kept aliases image placements last slots)
    {s : Section} (hs : s ∈ kept) : ∃ p ∈ placements, p.placed = s := by
  rw [← h.placed] at hs
  exact List.mem_map.mp hs

/-! ### Places -/

theorem targets_references (h : Linkage e root kept aliases image placements last slots) :
    (placements.flatMap targets).map Prod.fst = kept.flatMap Section.names :=
  h.placed ▸ targets_names placements

/-- What stands for a placed section has its place. -/
theorem place_section (h : Linkage e root kept aliases image placements last slots)
    (coherent : Section.Coherent kept) {p : Placement} (hp : p ∈ placements) {r : Reference}
    (hr : aliases.resolve r = p.placed.reference) : placeOf placements aliases r = p.start := by
  have hnodup := h.targets_references ▸ coherent.namesOnce
  rw [placeOf, hr, lookup_of_mem hnodup
    (List.mem_flatMap.mpr ⟨p, hp, List.mem_cons_self⟩)]
  rfl

/-- A mark has its place inside that of its section. -/
theorem place_mark (h : Linkage e root kept aliases image placements last slots)
    (coherent : Section.Coherent kept) {p : Placement} (hp : p ∈ placements) {mark : Mark}
    (hmark : mark ∈ p.placed.marks) {r : Reference} (hr : aliases.resolve r = mark.reference) :
    placeOf placements aliases r = p.start + mark.offset := by
  have hnodup := h.targets_references ▸ coherent.namesOnce
  have hmem : (mark.reference, p.start + mark.offset) ∈ placements.flatMap targets :=
    List.mem_flatMap.mpr ⟨p, hp, List.mem_cons_of_mem _ (List.mem_map_of_mem hmark)⟩
  rw [placeOf, hr, lookup_of_mem hnodup hmem]
  rfl

theorem stop_lt (h : Linkage e root kept aliases image placements last slots) {p : Placement}
    (hp : p ∈ placements) : p.stop < wordLimit := Nat.lt_of_le_of_lt (h.laid.stop_le p hp) h.fits

/-- Whatever is placed is placed behind the header and in the range of offsets. -/
theorem place_bounds (h : Linkage e root kept aliases image placements last slots)
    (coherent : Section.Coherent kept) {r : Reference} (hr : Placed placements aliases r) :
    Container.unitHeaderSize ≤ placeOf placements aliases r ∧
      placeOf placements aliases r ≤ last := by
  obtain ⟨⟨name, place⟩, hmem, heq⟩ := List.mem_map.mp hr
  obtain ⟨p, hp, htarget⟩ := List.mem_flatMap.mp hmem
  have hstart := h.laid.le_start p hp
  have hstop := h.laid.stop_le p hp
  rcases List.mem_cons.mp htarget with hself | hmem
  · cases hself
    rw [h.place_section coherent hp heq.symm]
    unfold stop at hstop
    omega
  · obtain ⟨mark, hmark, hname⟩ := List.mem_map.mp hmem
    cases hname
    rw [h.place_mark coherent hp hmark heq.symm]
    have hinside := (coherent.wellFormed _ (h.mem_kept hp)).marksInside mark hmark
    unfold stop at hstop
    omega

/-! ### Slots -/

theorem slot_inside (h : Linkage e root kept aliases image placements last slots)
    (coherent : Section.Coherent kept) {p : Placement}
    (hp : p ∈ placements) {site : Site} (hsite : site ∈ p.placed.sites) :
    p.start + site.offset + Pointer.slotSize ≤ p.stop := by
  have hinside := (coherent.wellFormed _ (h.mem_kept hp)).slotsInside site hsite
  unfold stop
  omega

theorem position_pointerOf (h : Linkage e root kept aliases image placements last slots)
    (coherent : Section.Coherent kept) {p : Placement}
    (hp : p ∈ placements) {site : Site} (hsite : site ∈ p.placed.sites) :
    (p.pointerOf placements aliases site).1.position.toNat = p.start + site.offset := by
  have hinside := h.slot_inside coherent hp hsite
  have hstop := h.stop_lt hp
  exact UInt32.toNat_ofNat_of_lt' (show p.start + site.offset < wordLimit by omega)

theorem target_pointerOf (h : Linkage e root kept aliases image placements last slots)
    (coherent : Section.Coherent kept) {p : Placement} (hp : p ∈ placements) {site : Site}
    (hsite : site ∈ p.placed.sites) :
    (p.pointerOf placements aliases site).1.target.toNat
      = placeOf placements aliases site.target := by
  have hbounds := h.place_bounds coherent (h.targetsPlaced p hp site hsite)
  have hfits := h.fits
  exact UInt32.toNat_ofNat_of_lt' (show placeOf placements aliases site.target < wordLimit by omega)

/-- Sites come one behind the other, those of one section and those of different ones. -/
theorem ascending (h : Linkage e root kept aliases image placements last slots)
    (coherent : Section.Coherent kept) : Ascending (pointersOf placements aliases) := by
  unfold Ascending pointersOf
  rw [List.pairwise_flatMap]
  refine ⟨?_, ?_⟩
  · intro p hp
    have hslots := List.Pairwise.and_mem.mp (coherent.wellFormed _ (h.mem_kept hp)).slots
    refine List.pairwise_map.mpr (hslots.imp ?_)
    rintro a b ⟨ha, hb, hle⟩
    rw [h.position_pointerOf coherent hp ha, h.position_pointerOf coherent hp hb]
    omega
  · refine (List.Pairwise.and_mem.mp h.laid.apart).imp ?_
    rintro p q ⟨hp, hq, hle⟩ x hx y hy
    obtain ⟨a, ha, rfl⟩ := List.mem_map.mp hx
    obtain ⟨b, hb, rfl⟩ := List.mem_map.mp hy
    rw [h.position_pointerOf coherent hp ha, h.position_pointerOf coherent hq hb]
    have hinside := h.slot_inside coherent hp ha
    omega

theorem mem_pointersOf {x : Pointer × PointerEncoding} :
    x ∈ pointersOf placements aliases ↔ ∃ p ∈ placements, ∃ site ∈ p.placed.sites,
      x = p.pointerOf placements aliases site := by
  unfold pointersOf
  simp only [List.mem_flatMap, List.mem_map, eq_comm]

/-- Every slot that is written is that of a site. -/
theorem site_of_slot (h : Linkage e root kept aliases image placements last slots)
    (coherent : Section.Coherent kept) {slot : Nat × Bytes}
    (hslot : slot ∈ (pointersOf placements aliases).filterMap (plainSlot? e) ++ slots) :
    slot.2.length = Pointer.slotSize ∧
      ∃ p ∈ placements, ∃ site ∈ p.placed.sites, slot.1 = p.start + site.offset := by
  refine ⟨slots_length h.chain slot hslot, ?_⟩
  have hposition := (slots_positions h.chain).subset (List.mem_map_of_mem hslot)
  obtain ⟨x, hx, heq⟩ := List.mem_map.mp hposition
  obtain ⟨p, hp, site, hsite, rfl⟩ := mem_pointersOf.mp hx
  exact ⟨p, hp, site, hsite, heq.symm.trans (h.position_pointerOf coherent hp hsite)⟩

theorem length_filled (h : Linkage e root kept aliases image placements last slots) :
    (fill placements ((headerOf placements aliases root).toBytes e)).length = last :=
  length_fill h.laid (Container.UnitHeader.length_toBytes e _)

theorem slots_inside (h : Linkage e root kept aliases image placements last slots)
    (coherent : Section.Coherent kept) :
    ∀ slot ∈ (pointersOf placements aliases).filterMap (plainSlot? e) ++ slots,
      slot.1 + slot.2.length
        ≤ (fill placements ((headerOf placements aliases root).toBytes e)).length := by
  intro slot hslot
  obtain ⟨hlength, p, hp, site, hsite, hposition⟩ := h.site_of_slot coherent hslot
  have hinside := h.slot_inside coherent hp hsite
  have hstop := h.laid.stop_le p hp
  rw [h.length_filled, hlength, hposition]
  omega

/-! ### The bytes of the unit -/

theorem length_bytes (h : Linkage e root kept aliases image placements last slots)
    (coherent : Section.Coherent kept) : image.bytes.length = last := by
  rw [h.bytes, length_patchAll (h.slots_inside coherent), h.length_filled]

/-- The unit opens with its header. -/
theorem header_hasAt (h : Linkage e root kept aliases image placements last slots)
    (coherent : Section.Coherent kept) :
    image.bytes.HasAt 0 ((headerOf placements aliases root).toBytes e) := by
  intro i hi
  have hlength := Container.UnitHeader.length_toBytes e (headerOf placements aliases root)
  rw [Nat.zero_add, h.bytes, getElem?_patchAll (h.slots_inside coherent), getElem?_fill _ _ hi]
  intro slot hslot
  obtain ⟨-, p, hp, site, -, hposition⟩ := h.site_of_slot coherent hslot
  have hstart := h.laid.le_start p hp
  omega

/-- The content of a placed section stands at its place, except for its slots. -/
theorem content (h : Linkage e root kept aliases image placements last slots)
    (coherent : Section.Coherent kept) {p : Placement} (hp : p ∈ placements) {i : Nat}
    (hi : i < p.placed.content.length) (outside : p.placed.Outside i) :
    image.bytes[p.start + i]? = p.placed.content[i]? := by
  have hheader := Container.UnitHeader.length_toBytes e (headerOf placements aliases root)
  rw [h.bytes, getElem?_patchAll (h.slots_inside coherent)]
  · exact fill_hasAt h.laid hheader hp i hi
  · intro slot hslot
    obtain ⟨hlength, q, hq, site, hsite, hposition⟩ := h.site_of_slot coherent hslot
    have hinside := h.slot_inside coherent hq hsite
    rw [hlength, hposition]
    rcases h.laid.eq_or_apart hp hq with rfl | hbehind | hbefore
    · have := outside site hsite
      omega
    · unfold stop at hbehind
      omega
    · omega

/-- Every slot of a placed section holds what its pointer says. -/
theorem slot (h : Linkage e root kept aliases image placements last slots)
    (coherent : Section.Coherent kept) {p : Placement} (hp : p ∈ placements) {site : Site}
    (hsite : site ∈ p.placed.sites) :
    ∃ slot, image.bytes.HasAt (p.start + site.offset) slot ∧
      SlotOf e (pointersOf placements aliases) (p.pointerOf placements aliases site).1
        site.encoding slot := by
  have hmem : p.pointerOf placements aliases site ∈ pointersOf placements aliases :=
    mem_pointersOf.mpr ⟨p, hp, site, hsite, rfl⟩
  obtain ⟨slot, hslot, hof⟩ := (h.ascending coherent).exists_slot h.chain hmem
  refine ⟨slot, ?_, hof⟩
  rw [← h.position_pointerOf coherent hp hsite, h.bytes]
  exact patchAll_hasAt (h.slots_inside coherent) ((h.ascending coherent).slots_apart h.chain) hslot

end Linkage

/-! ### Finished drafts -/

theorem Draft.requireFinished_eq_ok {d : Draft} {u : Unit} : d.requireFinished = .ok u ↔
    d.active? = none ∧ d.currentUnit = none ∧ d.blocks.find? (·.body.isNone) = none := by
  unfold requireFinished
  simp only [bind_eq_ok, requireNoBlock_eq_ok]
  cases d.currentUnit <;> cases d.blocks.find? (·.body.isNone) <;> simp

end ObjectPack
