import ObjectPack.Proofs.Draft.Outline
import ObjectPack.Proofs.Link.Layout

/-!
# Linking that breaks no contract

Linking looks up the places of all targets and rounds positions up.  The first succeeds where every slot and
every root refers to something in its data unit and digests tell sections apart, so that whatever has been
merged away is stood in for (`Draft.Valid.names_of_means`).  The second succeeds as long as the container that
comes out ends below the limit of offsets (`Draft.linkedSize`).  Then linking gives a container or an error
(`Draft.link_keepsContracts`).
-/

namespace ObjectPack

open Outcome Placement

/-! ### Places -/

namespace Placement

variable {placements : List Placement} {aliases : Aliases} {sections : List Section} {position unit : Nat}

/-- Where sections end that are placed one after another from a position on. -/
def reach : Nat → List Section → Nat
  | position, [] => position
  | position, s :: rest => reach (roundUp position s.alignment + s.content.length) rest

theorem le_reach (position : Nat) (sections : List Section) : position ≤ reach position sections := by
  induction sections generalizing position with
  | nil => exact Nat.le_refl _
  | cons s rest ih =>
    have hround := le_roundUp position s.alignment
    exact Nat.le_trans (by omega) (ih (roundUp position s.alignment + s.content.length))

/-- Sections can be placed as long as they end below the limit. -/
theorem exists_place (unit : Nat) (powers : ∀ s ∈ sections, isPowerOfTwo s.alignment = true ∧ s.alignment < wordLimit)
    (small : reach position sections < dataLimit) :
    ∃ placements, place unit position sections = .ok (placements, reach position sections) ∧
      placements.map (·.placed) = sections := by
  have hlimits : dataLimit < wordLimit := by decide
  induction sections generalizing position with
  | nil => exact ⟨[], if_pos (Nat.lt_trans small hlimits), rfl⟩
  | cons s rest ih =>
    obtain ⟨⟨hpower, hword⟩, hrest⟩ := List.forall_mem_cons.mp powers
    have hposition := Nat.lt_of_le_of_lt (le_reach position (s :: rest)) small
    obtain ⟨placements, hplace, hplaced⟩ := ih hrest small
    refine ⟨⟨s, roundUp position s.alignment⟩ :: placements, ?_, congrArg (s :: ·) hplaced⟩
    unfold place
    rw [if_neg (Nat.not_le.mpr (Nat.lt_trans hposition hlimits))]
    simp only [alignUp_eq hpower hword hposition, hplace, bind_eq_ok, pure_eq_ok, lift_eq_ok,
      Except.ok.injEq, exists_eq_left']
    rfl

/-- What has a place is found. -/
theorem exists_findTarget {r : Reference} (placed : Placed placements aliases r) :
    ∃ place, findTarget (placements.flatMap targets) (aliases.resolve r) = .ok place := by
  cases hlookup : (placements.flatMap targets).lookup (aliases.resolve r) with
  | some found => exact ⟨found, findTarget_eq_ok.mpr hlookup⟩
  | none => exact absurd placed (lookup_eq_none_iff.mp hlookup)

/-- The pointers of a placed section are found if its targets have places. -/
theorem exists_pointers {p : Placement}
    (placed : ∀ site ∈ p.placed.sites, Placed placements aliases site.target) :
    ∃ found, p.pointers (placements.flatMap targets) aliases = .ok found := by
  refine exists_mapM fun site hsite => ?_
  obtain ⟨place, hplace⟩ := exists_findTarget (placed site hsite)
  exact ⟨_, bind_eq_ok.mpr ⟨place, hplace, rfl⟩⟩

end Placement

/-! ### Data units -/

/-- Linking a data unit breaks no contract if it ends below the limit, and all that its slots and its root refer
to remains. -/
theorem LinkedUnit.ofSections_keepsContracts {e : Endian} {unit : Nat} {root : Option Reference}
    {sections : List Section}
    (powers : ∀ s ∈ (Section.merge e sections).1, isPowerOfTwo s.alignment = true ∧ s.alignment < wordLimit)
    (small : reach Container.unitHeaderSize (Section.merge e sections).1 < dataLimit)
    (sites : ∀ s ∈ (Section.merge e sections).1, ∀ site ∈ s.sites,
      (Section.merge e sections).2.resolve site.target ∈ (Section.merge e sections).1.flatMap Section.names)
    (named : ∀ r ∈ root,
      (Section.merge e sections).2.resolve r ∈ (Section.merge e sections).1.flatMap Section.names) :
    KeepsContracts (ofSections e unit root sections) := by
  obtain ⟨placements, hplace, hplaced⟩ := exists_place unit powers small
  have hnames := hplaced ▸ targets_names placements
  unfold ofSections
  dsimp only
  refine (KeepsContracts.of_exists ⟨_, hplace⟩).bind fun result hresult => ?_
  obtain rfl := Except.ok.inj (hplace.symm.trans hresult)
  refine KeepsContracts.bind (.mapM fun p hp => .lift ?_) fun found _ => ?_
  · refine exists_pointers fun site hsite => ?_
    unfold Placed
    rw [hnames]
    exact sites p.placed (hplaced ▸ List.mem_map_of_mem hp) site hsite
  refine (keepsContracts_mapError _ _).bind fun slots _ => ?_
  cases root with
  | none => exact keepsContracts_ok _
  | some reference =>
    refine KeepsContracts.bind (.lift (exists_findTarget ?_)) fun place _ => keepsContracts_ok _
    unfold Placed
    rw [hnames]
    exact named reference rfl

/-- Where the images end that are appended to a byte string of a length, by their alignments and lengths. -/
def stackReach : Nat → List (Nat × Nat) → Nat
  | position, [] => position
  | position, (alignment, length) :: rest => stackReach (roundUp position alignment + length) rest

theorem le_stackReach (position : Nat) (images : List (Nat × Nat)) :
    position ≤ stackReach position images ∧ ∀ x ∈ images, x.2 ≤ stackReach position images := by
  induction images generalizing position with
  | nil => exact ⟨Nat.le_refl _, fun _ hx => absurd hx List.not_mem_nil⟩
  | cons x rest ih =>
    obtain ⟨alignment, length⟩ := x
    have hround := le_roundUp position alignment
    obtain ⟨hposition, hrest⟩ := ih (roundUp position alignment + length)
    refine ⟨Nat.le_trans (by omega) hposition, List.forall_mem_cons.mpr ⟨?_, hrest⟩⟩
    exact Nat.le_trans (Nat.le_add_left _ _) hposition

/-- Images can be appended as long as they end below the limit. -/
theorem exists_appendImages {b : Bytes} {images : List LinkedUnit}
    (powers : ∀ image ∈ images, isPowerOfTwo image.alignment = true ∧ image.alignment < wordLimit)
    (small : stackReach b.length (images.map fun image => (image.alignment, image.bytes.length)) < dataLimit) :
    ∃ laid offsets, appendImages b images = .ok (laid, offsets) ∧
      laid.length = stackReach b.length (images.map fun image => (image.alignment, image.bytes.length)) := by
  have hlimits : dataLimit < wordLimit := by decide
  induction images generalizing b with
  | nil => exact ⟨b, [], rfl, rfl⟩
  | cons image rest ih =>
    obtain ⟨⟨hpower, hword⟩, hrest⟩ := List.forall_mem_cons.mp powers
    have hposition := Nat.lt_of_le_of_lt (le_stackReach b.length _).1 small
    have hlength : (b.padTo (roundUp b.length image.alignment) ++ image.bytes).length
        = roundUp b.length image.alignment + image.bytes.length := by
      rw [List.length_append, Bytes.length_padTo, Nat.max_eq_right (le_roundUp _ _)]
    rw [List.map_cons, stackReach, ← hlength] at small ⊢
    obtain ⟨laid, offsets, hlaid, hreach⟩ := ih hrest small
    refine ⟨laid, roundUp b.length image.alignment :: offsets, ?_, hreach⟩
    unfold appendImages
    rw [if_neg (Nat.not_le.mpr (Nat.lt_trans hposition hlimits)), alignUp_eq hpower hword hposition]
    simp only [bind_eq_ok, lift_eq_ok, pure_eq_ok, Except.ok.injEq, exists_eq_left', hlaid]

namespace Draft

variable {d : Draft} {unit : Nat} {r : Reference}

/-- Whether nothing waits in a draft, and all its slots refer to something in their data units. -/
structure Settled (d : Draft) : Prop where
  closed : d.currentBlock = none
  unopened : d.unopened = []
  means : ∀ unit target, d.RefersIn unit target → d.MeansIn unit target

/-- What means something in a data unit is a name of one of its sections. -/
theorem MeansIn.exists_name (h : d.MeansIn unit r) : ∃ s ∈ d.sections unit, r ∈ s.names := by
  obtain ⟨block, hblock, body, hbody, hin, hname⟩ := h
  refine ⟨d.sectionOf block body, mem_sections.mpr ⟨block, hblock, body, hbody, hin, rfl⟩, ?_⟩
  rcases hname with rfl | ⟨mark, hmark, rfl⟩
  · exact List.mem_cons_self
  · exact List.mem_cons_of_mem _ (List.mem_map_of_mem hmark)

/-- What means something in a data unit does so after merging, where digests tell. -/
theorem Valid.names_of_means (valid : d.Valid) (tell : Section.DigestsTell d.endian (d.sections unit))
    (means : d.MeansIn unit r) :
    (d.aliases unit).resolve r ∈
      (Section.merge d.endian (d.sections unit)).1.flatMap Section.names := by
  obtain ⟨s, hs, hname⟩ := means.exists_name
  obtain ⟨k, hk, hreference, hstands⟩ := valid.exists_standIn hs (Or.inr tell)
  refine List.mem_flatMap.mpr ⟨k, hk, ?_⟩
  rcases List.mem_cons.mp hname with rfl | hmark
  · exact hreference ▸ List.mem_cons_self
  · obtain ⟨mark, hmem, rfl⟩ := List.mem_map.mp hmark
    rw [(valid.merging unit).resolve_mark (valid.coherent unit) hs hmem]
    exact List.mem_cons_of_mem _ (List.mem_map_of_mem (hstands.marks.mem_iff.mpr hmem))

/-- The alignment of a data unit, and where it ends. -/
def unitExtent (d : Draft) (unit : Nat) : Nat × Nat :=
  let kept := (Section.merge d.endian (d.sections unit)).1
  (kept.foldl (fun a s => max a s.alignment) Container.unitAlignment, reach Container.unitHeaderSize kept)

/-- How long the container is that linking a draft gives, were there no word to stay in. -/
def linkedSize (d : Draft) : Nat :=
  stackReach (Container.headerSize + d.units.length * Container.recordSize)
    (d.units.zipIdx.map fun x => d.unitExtent x.2)

/-- No data unit ends behind the container. -/
theorem unitExtent_lt {x : DraftUnit × Nat} (small : d.linkedSize < dataLimit) (hx : x ∈ d.units.zipIdx) :
    (d.unitExtent x.2).2 < dataLimit :=
  Nat.lt_of_le_of_lt ((le_stackReach _ _).2 _
    (List.mem_map_of_mem (f := fun x => d.unitExtent x.2) hx)) small

theorem foldl_max_lt {sections : List Section} {start limit : Nat} (first : start < limit)
    (all : ∀ s ∈ sections, s.alignment < limit) :
    sections.foldl (fun a s => max a s.alignment) start < limit := by
  induction sections generalizing start with
  | nil => exact first
  | cons s rest ih =>
    obtain ⟨hs, hrest⟩ := List.forall_mem_cons.mp all
    exact ih (Nat.max_lt.mpr ⟨first, hs⟩) hrest

/-- The blocks that remain of a data unit have sensible alignments, and so has the data unit. -/
theorem Valid.alignments (valid : d.Valid) (unit : Nat) :
    (∀ s ∈ (Section.merge d.endian (d.sections unit)).1,
      isPowerOfTwo s.alignment = true ∧ s.alignment < wordLimit) ∧
    isPowerOfTwo (d.unitExtent unit).1 = true ∧ (d.unitExtent unit).1 < wordLimit := by
  have hkept : ∀ s ∈ (Section.merge d.endian (d.sections unit)).1,
      isPowerOfTwo s.alignment = true ∧ s.alignment < wordLimit := by
    intro k hk
    obtain ⟨-, s, hs, -, hstands⟩ := (valid.merging unit).survivors k hk
    obtain ⟨block, hblock, body, -, -, rfl⟩ := mem_sections.mp hs
    rw [hstands.alignment]
    exact ⟨valid.powers block hblock, valid.alignmentsFit block hblock⟩
  exact ⟨hkept, (foldl_max_alignment (by decide) fun s hs => (hkept s hs).1).1,
    foldl_max_lt (by decide) fun s hs => (hkept s hs).2⟩

/-- The image of a data unit has the extent of the data unit. -/
theorem Valid.extent_of_ofSections (valid : d.Valid) {root : Option Reference} {image : LinkedUnit}
    (h : LinkedUnit.ofSections d.endian unit root (d.sections unit) = .ok image)
    (small : (d.unitExtent unit).2 < dataLimit) :
    (image.alignment, image.bytes.length) = d.unitExtent unit := by
  have hcoherent := (valid.merging unit).coherent
  obtain ⟨placements, last, slots, hplace, hlinkage⟩ :=
    LinkedUnit.ofSections_linkage hcoherent.wellFormed h
  obtain ⟨placements', hplace', -⟩ := exists_place unit (valid.alignments unit).1 small
  have hlast := congrArg Prod.snd (Except.ok.inj (hplace.symm.trans hplace'))
  refine Prod.ext (LinkedUnit.ofSections_counts h).1 ?_
  exact (hlinkage.length_bytes hcoherent).trans hlast

/-- All slots that remain after merging refer to something that remains. -/
theorem Settled.names_of_site (settled : d.Settled) (valid : d.Valid)
    (tell : Section.DigestsTell d.endian (d.sections unit)) {k : Section}
    (hk : k ∈ (Section.merge d.endian (d.sections unit)).1) {site : Site} (hsite : site ∈ k.sites) :
    (d.aliases unit).resolve site.target ∈
      (Section.merge d.endian (d.sections unit)).1.flatMap Section.names := by
  have hmerging := valid.merging unit
  obtain ⟨-, s, hs, -, hstands⟩ := hmerging.survivors k hk
  rw [hstands.sites] at hsite
  obtain ⟨former, hformer, rfl⟩ := List.mem_map.mp hsite
  obtain ⟨block, hblock, body, hbody, hin, rfl⟩ := mem_sections.mp hs
  have hrefers : d.RefersIn unit former.target := ⟨body, ⟨block, hblock, hbody⟩, hin, former, hformer, rfl⟩
  rw [hmerging.resolve_resolve]
  exact valid.names_of_means tell (settled.means unit former.target hrefers)

/-- Nothing that has been settled is unfinished. -/
theorem Settled.requireFinished_eq_ok (settled : d.Settled) (closed : d.currentUnit = none) :
    d.requireFinished = .ok () := by
  have hbodies : d.blocks.find? (·.body.isNone) = none := by
    refine List.find?_eq_none.mpr fun block hblock hnone => ?_
    have hwaits := mem_unopened.mpr ⟨block, hblock, Option.isNone_iff_eq_none.mp hnone, rfl⟩
    rw [settled.unopened] at hwaits
    exact List.not_mem_nil hwaits
  exact Draft.requireFinished_eq_ok.mpr ⟨active?_of_no_current settled.closed, closed, hbodies⟩

/-- The images of the data units are as long as the draft foretells, so they can be laid in the room that it
has. -/
theorem Valid.exists_joinUnits (valid : d.Valid) {images : List LinkedUnit}
    (himages : (d.units.zipIdx.mapM fun (u, unit) =>
      LinkedUnit.ofSections d.endian unit u.root (d.sections unit)) = .ok images)
    (small : d.linkedSize < dataLimit) : ∃ packed, d.joinUnits images = .ok packed := by
  have hextents : images.map (fun image => (image.alignment, image.bytes.length))
      = d.units.zipIdx.map fun x => d.unitExtent x.2 :=
    map_of_mapM himages fun x hx image himage =>
      valid.extent_of_ofSections himage (unitExtent_lt small hx)
  have hlength : images.length = d.units.length := by
    have hlengths := congrArg List.length hextents
    rwa [List.length_map, List.length_map, List.length_zipIdx] at hlengths
  have hpowers : ∀ image ∈ images, isPowerOfTwo image.alignment = true ∧ image.alignment < wordLimit := by
    intro image himage
    have hmem : (image.alignment, image.bytes.length) ∈ d.units.zipIdx.map fun x => d.unitExtent x.2 :=
      hextents ▸ List.mem_map_of_mem himage
    obtain ⟨x, -, hx⟩ := List.mem_map.mp hmem
    have halignment := (valid.alignments x.2).2
    rwa [hx] at halignment
  obtain ⟨laid, offsets, hlaid, hreach⟩ := exists_appendImages
    (b := Bytes.zeros (Container.headerSize + images.length * Container.recordSize)) hpowers
    (by rw [hextents, Bytes.length_zeros, hlength]; exact small)
  rw [hextents, Bytes.length_zeros, hlength] at hreach
  have hfits : ¬ wordLimit ≤ laid.length := by
    have hlimits : dataLimit < wordLimit := by decide
    have hlaidSmall : laid.length < dataLimit := hreach ▸ small
    omega
  unfold joinUnits
  simp only [hlaid, bind_eq_ok, Except.ok.injEq, exists_eq_left', if_neg hfits]
  exact ⟨_, rfl⟩

/-- Linking a finished draft breaks no contract if its slots and roots refer to something in their data units,
digests tell its blocks apart, and the container ends below the limit of offsets. -/
theorem link_keepsContracts (valid : d.Valid) (settled : d.Settled) (closed : d.currentUnit = none)
    (roots : ∀ (unit : Nat) (u : DraftUnit), d.units[unit]? = some u → ∀ r ∈ u.root, d.MeansIn unit r)
    (tell : ∀ unit < d.units.length, Section.DigestsTell d.endian (d.sections unit))
    (small : d.linkedSize < dataLimit) : KeepsContracts d.link := by
  unfold link
  refine (KeepsContracts.lift ⟨(), settled.requireFinished_eq_ok closed⟩).bind fun _ _ => ?_
  refine KeepsContracts.bind (.mapM fun x hx => ?_) fun images himages => ?_
  · have hunit := List.mem_zipIdx_iff_getElem?.mp hx
    have htell := tell x.2 (List.getElem?_eq_some_iff.mp hunit).1
    exact LinkedUnit.ofSections_keepsContracts (valid.alignments x.2).1 (unitExtent_lt small hx)
      (fun k hk site hsite => settled.names_of_site valid htell hk hsite)
      fun r hr => valid.names_of_means htell (roots x.2 x.1 hunit r hr)
  · exact .of_exists (valid.exists_joinUnits himages small)

end Draft

end ObjectPack
