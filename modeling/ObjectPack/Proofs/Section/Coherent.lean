import Mathlib.Data.List.Nodup
import Mathlib.Data.List.Pairwise
import ObjectPack.Draft.Section
import ObjectPack.Proofs.Draft.Valid

/-!
# Coherent sections

The sections of one data unit fit together (`Section.Coherent`): in each of them the slots stand
apart inside the content, and no reference has two meanings among them, be it as the name of a block
or as a mark.  Valid drafts have coherent sections (`Draft.Valid.coherent`), and each section is a
block that was opened in the unit (`Draft.mem_sections`).
-/

namespace ObjectPack

namespace Section

/-- What holds of each section for itself. -/
structure WellFormed (s : Section) : Prop where
  power : isPowerOfTwo s.alignment = true
  /-- The slots stand one behind the other. -/
  slots : s.sites.Pairwise fun a b => a.offset + Pointer.slotSize ≤ b.offset
  slotsInside : ∀ site ∈ s.sites, site.offset + Pointer.slotSize ≤ s.content.length
  marksInside : ∀ mark ∈ s.marks, mark.offset ≤ s.content.length

/-- The references that mean something in a section: its own and those of its marks. -/
def names (s : Section) : List Reference := s.reference :: s.marks.map (·.reference)

/-- What holds of the sections of one data unit. -/
structure Coherent (sections : List Section) : Prop where
  wellFormed : ∀ s ∈ sections, s.WellFormed
  /-- No reference has two meanings. -/
  namesOnce : (sections.flatMap names).Nodup

theorem reference_mem_names (s : Section) : s.reference ∈ s.names := List.mem_cons_self

theorem mark_mem_names {s : Section} {mark : Mark} (h : mark ∈ s.marks) :
    mark.reference ∈ s.names :=
  List.mem_cons_of_mem _ (List.mem_map_of_mem h)

/-- A reference means something in one section only. -/
theorem Coherent.eq_of_mem_names {sections : List Section} (h : Coherent sections) {s t : Section}
    (hs : s ∈ sections) (ht : t ∈ sections) {r : Reference} (hrs : r ∈ s.names)
    (hrt : r ∈ t.names) : s = t := by
  have hpair := (List.nodup_flatMap.mp h.namesOnce).2
  have : Std.Symm (Function.onFun List.Disjoint names) := 
    ⟨fun _ _ hdisjoint _ hr hr' => hdisjoint hr' hr⟩
  by_contra hne
  exact hpair.forall hs ht hne hrs hrt

theorem Coherent.referencesOnce {sections : List Section} (h : Coherent sections) :
    (sections.map (·.reference)).Nodup := by
  have hpair := (List.nodup_flatMap.mp h.namesOnce).2
  refine List.pairwise_map.mpr (hpair.imp ?_)
  intro a b hdis heq
  exact hdis a.reference_mem_names (heq ▸ b.reference_mem_names)

/-- A mark does not bear the name of a section. -/
theorem Coherent.mark_ne {sections : List Section} (h : Coherent sections) {s t : Section}
    (hs : s ∈ sections) (ht : t ∈ sections) {mark : Mark} (hmark : mark ∈ s.marks) :
    mark.reference ≠ t.reference := by
  intro heq
  obtain rfl := h.eq_of_mem_names hs ht (mark_mem_names hmark) (heq ▸ t.reference_mem_names)
  have hnodup := (List.nodup_flatMap.mp h.namesOnce).1 s hs
  exact (List.nodup_cons.mp hnodup).1 (heq ▸ List.mem_map_of_mem hmark)

end Section

namespace Draft

/-- The section that a block with a body makes. -/
def sectionOf (d : Draft) (block : Block) (body : Body) : Section :=
  ⟨block.reference, block.alignment, (d.buffer.drop body.start).take body.size, body.sites,
    body.marks⟩

theorem length_sectionOf {d : Draft} (block : Block) {body : Body}
    (inside : body.start + body.size ≤ d.buffer.length) :
    (d.sectionOf block body).content.length = body.size := by
  show ((d.buffer.drop body.start).take body.size).length = body.size
  rw [List.length_take, List.length_drop]
  omega

/-- The content of a section is the part of the buffer that belongs to the block. -/
theorem getElem?_sectionOf (d : Draft) (block : Block) (body : Body) {i : Nat} (hi : i < body.size) :
    (d.sectionOf block body).content[i]? = d.buffer[body.start + i]? := by
  show ((d.buffer.drop body.start).take body.size)[i]? = _
  rw [List.getElem?_take, if_pos hi, List.getElem?_drop]

theorem section_of_block {d : Draft} {unit : Nat} {block : Block} {s : Section}
    (h : (match block.body with
      | some body => if body.unit = unit then block.section? d.buffer else none
      | none => none) = some s) :
    ∃ body, block.body = some body ∧ body.unit = unit ∧ s = d.sectionOf block body := by
  cases hbody : block.body with
  | none =>
    rw [hbody] at h
    cases h
  | some body =>
    simp only [hbody, Block.section?, Option.map_some] at h
    split at h
    · rename_i hunit
      exact ⟨body, rfl, hunit, (Option.some.inj h).symm⟩
    · cases h

/-- The sections of a data unit are the blocks that were opened in it. -/
theorem mem_sections {d : Draft} {unit : Nat} {s : Section} :
    s ∈ d.sections unit ↔ ∃ block ∈ d.blocks, ∃ body, block.body = some body ∧ body.unit = unit ∧
      s = d.sectionOf block body := by
  unfold sections
  rw [List.mem_filterMap]
  refine exists_congr fun block => and_congr_right fun _ => ?_
  constructor
  · exact section_of_block
  · rintro ⟨body, hbody, hunit, rfl⟩
    simp only [hbody, Block.section?, Option.map_some, if_pos hunit]
    rfl

/-- The sections of a data unit of a valid draft are coherent. -/
theorem Valid.coherent {d : Draft} (h : d.Valid) (unit : Nat) :
    Section.Coherent (d.sections unit) where
  wellFormed := by
    intro s hs
    obtain ⟨block, hblock, body, hbody, -, rfl⟩ := mem_sections.mp hs
    have hvalid := h.bodies block hblock body hbody
    have hsize := length_sectionOf block hvalid.inside
    exact
      { power := h.powers block hblock
        slots := hvalid.slots
        slotsInside := fun site hsite => hsize.symm ▸ hvalid.slotsInside site hsite
        marksInside := fun mark hmark => hsize.symm ▸ hvalid.marksInside mark hmark }
  namesOnce := by
    refine List.nodup_flatMap.mpr ⟨?_, ?_⟩
    · intro s hs
      obtain ⟨block, hblock, body, hbody, -, rfl⟩ := mem_sections.mp hs
      refine List.nodup_cons.mpr ⟨?_, (h.bodies block hblock body hbody).marksOnce⟩
      intro hmem
      obtain ⟨mark, hmark, heq⟩ := List.mem_map.mp hmem
      exact h.marksUnnamed block hblock body hbody mark hmark block hblock heq.symm
    · -- Names of two sections: a reference or a mark on either side.
      have hreferences := List.pairwise_map.mp h.referencesOnce
      have hblocks := List.Pairwise.and_mem.mp (h.marksApart.and hreferences)
      refine List.pairwise_filterMap.mpr (hblocks.imp ?_)
      rintro a b ⟨ha, hb, hapart, hne⟩ s hs t ht r hrs hrt
      obtain ⟨bodyA, hbodyA, hunitA, rfl⟩ := section_of_block hs
      obtain ⟨bodyB, hbodyB, hunitB, rfl⟩ := section_of_block ht
      rcases List.mem_cons.mp hrs with rfl | hrs
      · rcases List.mem_cons.mp hrt with heq | hrt
        · exact hne heq
        · obtain ⟨mark, hmark, heq⟩ := List.mem_map.mp hrt
          exact h.marksUnnamed b hb bodyB hbodyB mark hmark a ha heq.symm
      · obtain ⟨markA, hmarkA, rfl⟩ := List.mem_map.mp hrs
        rcases List.mem_cons.mp hrt with heq | hrt
        · exact h.marksUnnamed a ha bodyA hbodyA markA hmarkA b hb heq.symm
        · obtain ⟨markB, hmarkB, heq⟩ := List.mem_map.mp hrt
          exact hapart bodyA hbodyA bodyB hbodyB (hunitA.trans hunitB.symm) markA hmarkA markB
            hmarkB heq.symm

end Draft

end ObjectPack
