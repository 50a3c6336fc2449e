import ObjectPack.Proofs.Draft.Rename
import ObjectPack.Proofs.Link.Rename

/-!
# Linking drafts with other names

The sections of a draft whose references have been renamed are renamed sections
(`Draft.Renamed.sections`), so every data unit is linked to the same image.  Nothing else that a
container shows depends on references, and so the containers are equal (`Draft.Renamed.link`), as long
as equal digests mean equal sections in both drafts (`Draft.DigestsSuffice`).
-/

namespace ObjectPack.Draft

open Outcome

variable {f : Reference → Reference} {t : Nat} {d d' : Draft}

/-- Whether in every data unit sections with equal digests agree, before every pass of merging. -/
def DigestsSuffice (d : Draft) : Prop :=
  ∀ unit < d.units.length, Section.DigestsTell d.endian (d.sections unit)

/-- The one data unit of a draft is checked by evaluation. -/
theorem DigestsSuffice.of_check {passes : Nat} (single : d.units.length = 1)
    (tell : Section.digestsTell d.endian passes (d.sections 0) = true) : d.DigestsSuffice := by
  intro unit hunit
  obtain rfl : unit = 0 := by omega
  exact Section.digestsTell_of_check tell

/-- The sections of a renamed draft are the sections with renamed references. -/
theorem Renamed.sections (h : Renamed f t d d') (unit : Nat) :
    List.Forall₂ (Section.Renamed f) (d.sections unit) (d'.sections unit) := by
  obtain ⟨b, rfl⟩ : ∃ b, d' = d.renamed f t b := ⟨_, h.eq⟩
  unfold Draft.sections renamed
  rw [List.filterMap_map]
  have hsame : List.Forall₂ (fun block block' => block = block' ∧ block ∈ d.blocks) d.blocks d.blocks := by
    rw [List.forall₂_iff_get]
    exact ⟨rfl, fun i hi hi' => ⟨rfl, List.get_mem _ _⟩⟩
  refine List.rel_filterMap ?_ hsame
  rintro block _ ⟨rfl, hblock⟩
  obtain ⟨reference, alignment, limit, body⟩ := block
  cases body with
  | none => exact .none
  | some body =>
    have hagrees := h.bodies _ hblock body rfl
    by_cases hunit : body.unit = unit
    · simp only [Function.comp_apply, Block.rename, Body.rename, Option.map_some, hunit, if_true]
      exact .some ⟨rfl, rfl, hagrees.content, rfl, rfl⟩
    · simp only [Function.comp_apply, Block.rename, Body.rename, Option.map_some, hunit, if_false]
      exact .none

/-- What merging needs of a draft and of the renamed one. -/
theorem Renamed.parallel (h : Renamed f t d d') (valid : d.Valid) (valid' : d'.Valid)
    (numbered : d.Numbered) (numbered' : d'.Numbered) (suffice : d.DigestsSuffice)
    (suffice' : d'.DigestsSuffice) {unit : Nat} (hunit : unit < d.units.length) :
    Section.Parallel d.endian f (d.sections unit) (d'.sections unit) where
  pairs := h.sections unit
  coherent := valid.coherent unit
  coherent' := valid'.coherent unit
  numbered := numbered.sections valid unit
  numbered' := h.endian ▸ numbered'.sections valid' unit
  tell := suffice unit hunit
  tell' := by
    have hunits : d'.units.length = d.units.length := by
      rw [h.eq]
      exact List.length_map ..
    exact h.endian ▸ suffice' unit (hunits ▸ hunit)

theorem Renamed.requireFinished (h : Renamed f t d d') :
    Follows Eq d.requireFinished d'.requireFinished := by
  rintro ⟨⟩ hfinished
  obtain ⟨hclosed, hunit, hbodies⟩ := requireFinished_eq_ok.mp hfinished
  refine ⟨(), requireFinished_eq_ok.mpr ⟨h.inactive.mpr hclosed, h.currentUnit.trans hunit, ?_⟩, rfl⟩
  rw [h.eq]
  show (d.blocks.map (Block.rename _)).find? _ = none
  rw [List.find?_map, Option.map_eq_none_iff, ← hbodies]
  refine congrArg (d.blocks.find? ·) (funext fun block => ?_)
  exact Option.isNone_map ..

/-- Of the data units of a draft a container only shows the signatures. -/
theorem Renamed.joinUnits (h : Renamed f t d d') (images : List LinkedUnit) :
    d'.joinUnits images = d.joinUnits images := by
  rw [h.eq]
  unfold Draft.joinUnits renamed
  simp only [List.zip_map_left, List.map_map]
  rfl

/-- The container of a renamed draft is that of the draft. -/
theorem Renamed.link (h : Renamed f t d d') (valid : d.Valid) (valid' : d'.Valid)
    (numbered : d.Numbered) (numbered' : d'.Numbered) (suffice : d.DigestsSuffice)
    (suffice' : d'.DigestsSuffice) : Follows Eq d.link d'.link := by
  have hunits : List.Forall₂ (fun x x' => x.2 < d.units.length ∧ x'.1 = x.1.rename f ∧ x'.2 = x.2)
      d.units.zipIdx d'.units.zipIdx := by
    rw [h.eq]
    show List.Forall₂ _ _ (d.units.map (DraftUnit.rename _)).zipIdx
    rw [List.zipIdx_map, List.forall₂_map_right_iff, List.forall₂_iff_get]
    refine ⟨rfl, fun i hi hi' => ⟨?_, rfl, rfl⟩⟩
    exact (List.getElem?_eq_some_iff.mp (List.mem_zipIdx_iff_getElem?.mp (List.get_mem _ _))).1
  unfold Draft.link
  refine h.requireFinished.lift.bind fun _ _ _ => ?_
  refine (Follows.mapM hunits ?_).bind ?_
  · rintro ⟨unit, index⟩ ⟨unit', index'⟩ ⟨hindex, hunit, hsame⟩ image himage
    obtain rfl : unit' = unit.rename f := hunit
    obtain rfl : index' = index := hsame
    have hparallel := h.parallel valid valid' numbered numbered' suffice suffice' hindex
    refine ⟨image, ?_, rfl⟩
    rw [h.endian]
    exact LinkedUnit.ofSections_renamed h.injective hparallel himage
  · rintro images _ rfl
    rw [h.joinUnits]
    exact .rfl

end ObjectPack.Draft
