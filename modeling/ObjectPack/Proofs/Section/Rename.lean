import Mathlib.Data.List.Forall2
import ObjectPack.Proofs.Section.Sharing

/-!
# Renamed references

References are names, so nothing but the names changes when all references of a data unit are renamed
injectively.  `Section.Renamed` says what such sections have in common: all but the references
themselves and the slots that hold their numbers.

Merging compares digests, which do cover the references.  Two sections that have different names are
merged only if they are the same and therefore have no marks; their renamings then agree in their sites
and so in their slots, and have one digest again (`Section.Parallel.digest_iff`).  So every pass merges
the renamings of what it merges, and what is left are renamings of each other
(`Section.Parallel.merge`).
-/

namespace ObjectPack

/-- A site that leads to the renamed reference. -/
def Site.rename (f : Reference → Reference) (s : Site) : Site := { s with target := f s.target }

/-- A mark that bears the renamed reference. -/
def Mark.rename (f : Reference → Reference) (m : Mark) : Mark := { m with reference := f m.reference }

variable {f : Reference → Reference}

theorem Site.rename_injective (inj : Function.Injective f) : Function.Injective (Site.rename f) := by
  rintro ⟨offset, target, encoding⟩ ⟨offset', target', encoding'⟩ h
  simp only [rename, Site.mk.injEq] at h
  obtain ⟨rfl, htarget, rfl⟩ := h
  rw [inj htarget]

/-- Where keys are renamed injectively, what stands behind them is found as before. -/
theorem lookup_map_of_injective {α β γ : Type} [DecidableEq α] {f : α → α} (inj : Function.Injective f)
    (g : β → γ) (l : List (α × β)) (k : α) :
    (l.map fun p => (f p.1, g p.2)).lookup (f k) = (l.lookup k).map g := by
  induction l with
  | nil => rfl
  | cons p l ih =>
    rw [List.map_cons, List.lookup_cons, List.lookup_cons]
    by_cases heq : k = p.1
    · rw [beq_iff_eq.mpr heq, beq_iff_eq.mpr (congrArg f heq)]
      rfl
    · rw [beq_false_of_ne heq, beq_false_of_ne (inj.ne heq), ih]

namespace Aliases

/-- Merges of renamed sections. -/
def rename (f : Reference → Reference) (a : Aliases) : Aliases := a.map fun p => (f p.1, f p.2)

/-- What stands in for a renamed reference is the renaming of what stands in for the reference. -/
theorem resolve_rename (inj : Function.Injective f) (a : Aliases) (r : Reference) :
    (a.rename f).resolve (f r) = f (a.resolve r) := by
  unfold resolve rename
  rw [lookup_map_of_injective inj]
  cases a.lookup r <;> rfl

theorem compose_rename (inj : Function.Injective f) (a b : Aliases) :
    (a.compose b).rename f = (a.rename f).compose (b.rename f) := by
  unfold compose rename
  rw [List.map_append, List.map_map, List.map_map]
  congr 1
  refine List.map_congr_left fun p _ => ?_
  exact Prod.ext rfl (resolve_rename inj b p.2).symm

end Aliases

namespace Section

variable {s s' t t' : Section} {e : Endian} {l l' : List Section}

/-! ### Single sections -/

theorem Same.unmarked (h : s.Same t) (unmarked : s.marks = []) : t.marks = [] := by
  have hmarks := h.marks
  rw [unmarked] at hmarks
  exact List.nil_perm.mp hmarks

/-- Whether a section is another one with renamed references; what the slots hold is left open. -/
structure Renamed (f : Reference → Reference) (s s' : Section) : Prop where
  reference : s'.reference = f s.reference
  alignment : s'.alignment = s.alignment
  content : Bytes.AgreeWhere s.Outside s.content s'.content
  sites : s'.sites = s.sites.map (·.rename f)
  marks : s'.marks = s.marks.map (·.rename f)

theorem Renamed.outside (h : Renamed f s s') (i : Nat) : s'.Outside i ↔ s.Outside i := by
  unfold Outside
  rw [h.sites]
  exact List.forall_mem_map

/-- The renamings of one section without marks have one digest. -/
theorem Renamed.digest_eq (hs : Renamed f s s') (ht : Renamed f t t') (numbered : s'.Numbered e)
    (numbered' : t'.Numbered e) (same : s.Same t) (unmarked : s.marks = []) : s'.digest = t'.digest := by
  have hsites : s'.sites = t'.sites := by rw [hs.sites, ht.sites, same.sites]
  have hcontent : s'.content = t'.content := by
    refine numbered.content_eq numbered' hsites fun i hi => ?_
    have hout : t.Outside i := by
      rw [← ht.outside]
      unfold Outside at hi ⊢
      rwa [← hsites]
    rw [hs.content.bytes i ((hs.outside i).mp hi), ht.content.bytes i hout, same.content]
  refine Section.digest_eq hcontent (by rw [hs.alignment, ht.alignment, same.alignment]) hsites ?_ ?_
  · rw [hs.marks, unmarked, List.map_nil]
  · rw [ht.marks, same.unmarked unmarked, List.map_nil]

/-- Sections without marks whose renamings are the same have one digest. -/
theorem Renamed.digest_eq_of_renamed (inj : Function.Injective f) (hs : Renamed f s s')
    (ht : Renamed f t t') (numbered : s.Numbered e) (numbered' : t.Numbered e) (same : s'.Same t')
    (unmarked : s'.marks = []) : s.digest = t.digest := by
  have hsites : s.sites = t.sites := by
    have hmap := same.sites
    rw [hs.sites, ht.sites] at hmap
    exact List.map_injective_iff.mpr (Site.rename_injective inj) hmap
  have hcontent : s.content = t.content := by
    refine numbered.content_eq numbered' hsites fun i hi => ?_
    have hout : t.Outside i := by
      unfold Outside at hi ⊢
      rwa [← hsites]
    rw [← hs.content.bytes i hi, ← ht.content.bytes i hout, same.content]
  refine Section.digest_eq hcontent (by rw [← hs.alignment, ← ht.alignment, same.alignment]) hsites ?_ ?_
  · exact List.map_eq_nil_iff.mp (hs.marks.symm.trans unmarked)
  · exact List.map_eq_nil_iff.mp (ht.marks.symm.trans (same.unmarked unmarked))

/-- Two sections that are the same under different names have no marks. -/
theorem unmarked_of_same (coherent : Coherent l) (hs : s ∈ l) (ht : t ∈ l) (ne : s ≠ t)
    (same : s.Same t) : s.marks = [] := by
  refine List.eq_nil_iff_forall_not_mem.mpr fun mark hmark => ne ?_
  exact coherent.eq_of_mem_names hs ht (mark_mem_names hmark)
    (mark_mem_names (same.marks.subset hmark))

/-- Replacing renamed references renames what is replaced. -/
theorem Renamed.retarget (inj : Function.Injective f) (h : Renamed f s s') (wellFormed : s.WellFormed)
    (wellFormed' : s'.WellFormed) (e : Endian) (merged : Aliases) :
    Renamed f (s.retarget e merged) (s'.retarget e (merged.rename f)) := by
  have hstands := wellFormed.retarget_standsFor e merged
  have hstands' := wellFormed'.retarget_standsFor e (merged.rename f)
  refine
    { reference := h.reference
      alignment := h.alignment
      content := ⟨by rw [hstands'.size, hstands.size, h.content.length], fun i hi => ?_⟩
      sites := ?_
      marks := h.marks }
  · have hout := (hstands.outside i).mp hi
    rw [hstands'.content i ((h.outside i).mpr hout), hstands.content i hout, h.content.bytes i hout]
  · rw [hstands'.sites, hstands.sites, h.sites, List.map_map, List.map_map]
    refine List.map_congr_left fun site _ => ?_
    exact congrArg (Site.mk site.offset · site.encoding) (Aliases.resolve_rename inj merged site.target)

/-! ### Splitting -/

variable {P : Section → Section → Prop} {done done' : List Section}

/-- Renamed sections have met what the sections have met. -/
theorem lookup_renamed (named : ∀ s s', P s s' → s'.reference = f s.reference)
    (digests : ∀ s s' t t', P s s' → P t t' → (s.digest = t.digest ↔ s'.digest = t'.digest))
    (earlier : List.Forall₂ P done done') (h : P s s') :
    (done'.map fun t => (t.digest, t.reference)).lookup s'.digest
      = ((done.map fun t => (t.digest, t.reference)).lookup s.digest).map f := by
  induction earlier with
  | nil => rfl
  | @cons t t' _ _ ht _ ih =>
    rw [List.map_cons, List.map_cons, List.lookup_cons, List.lookup_cons]
    by_cases heq : s.digest = t.digest
    · rw [beq_iff_eq.mpr heq, beq_iff_eq.mpr ((digests s s' t t' h ht).mp heq), named t t' ht]
      rfl
    · have hne : s'.digest ≠ t'.digest := fun h' => heq ((digests s s' t t' h ht).mpr h')
      rw [beq_false_of_ne heq, beq_false_of_ne hne, ih]

/-- Renamed sections are split as the sections are. -/
theorem split_renamed (named : ∀ s s', P s s' → s'.reference = f s.reference)
    (digests : ∀ s s' t t', P s s' → P t t' → (s.digest = t.digest ↔ s'.digest = t'.digest))
    (earlier : List.Forall₂ P done done') (pairs : List.Forall₂ P l l') :
    List.Forall₂ P (split (done.map fun t => (t.digest, t.reference)) l).1
        (split (done'.map fun t => (t.digest, t.reference)) l').1 ∧
      (split (done'.map fun t => (t.digest, t.reference)) l').2
        = (split (done.map fun t => (t.digest, t.reference)) l).2.rename f := by
  induction pairs generalizing done done' with
  | nil => exact ⟨.nil, rfl⟩
  | @cons s s' _ _ hs _ ih =>
    have hlookup := lookup_renamed named digests earlier hs
    rw [split, split, hlookup]
    cases (done.map fun t => (t.digest, t.reference)).lookup s.digest with
    | some first =>
      obtain ⟨hkept, hmerged⟩ := ih earlier
      refine ⟨hkept, ?_⟩
      show (s'.reference, f first) :: _ = _
      rw [hmerged, named s s' hs]
      rfl
    | none =>
      obtain ⟨hkept, hmerged⟩ := ih (earlier.cons hs)
      exact ⟨hkept.cons hs, hmerged⟩

/-! ### All sections of a data unit -/

/-- What holds of the sections of a data unit and of their renamings. -/
structure Parallel (e : Endian) (f : Reference → Reference) (l l' : List Section) : Prop where
  pairs : List.Forall₂ (Renamed f) l l'
  coherent : Coherent l
  coherent' : Coherent l'
  numbered : ∀ s ∈ l, s.Numbered e
  numbered' : ∀ s ∈ l', s.Numbered e
  tell : DigestsTell e l
  tell' : DigestsTell e l'

/-- Renamings have one digest exactly where the sections do. -/
theorem Parallel.digest_iff (inj : Function.Injective f) (h : Parallel e f l l') (hs : s ∈ l)
    (hs' : s' ∈ l') (ht : t ∈ l) (ht' : t' ∈ l') (hss : Renamed f s s') (htt : Renamed f t t') :
    s.digest = t.digest ↔ s'.digest = t'.digest := by
  by_cases heq : s = t
  · subst heq
    have href : s'.reference = t'.reference := hss.reference.trans htt.reference.symm
    rw [eq_of_reference_eq h.coherent' hs' ht' href]
    exact iff_of_true rfl rfl
  · have hne : s' ≠ t' := by
      rintro rfl
      exact heq (eq_of_reference_eq h.coherent hs ht (inj (hss.reference.symm.trans htt.reference)))
    constructor
    · intro hdigest
      have hsame := h.tell l (.start l) s hs t ht hdigest
      exact hss.digest_eq htt (h.numbered' s' hs') (h.numbered' t' ht') hsame
        (unmarked_of_same h.coherent hs ht heq hsame)
    · intro hdigest
      have hsame := h.tell' l' (.start l') s' hs' t' ht' hdigest
      exact hss.digest_eq_of_renamed inj htt (h.numbered s hs) (h.numbered t ht) hsame
        (unmarked_of_same h.coherent' hs' ht' hne hsame)

/-- A pass splits renamed sections as it splits the sections. -/
theorem Parallel.split (inj : Function.Injective f) (h : Parallel e f l l') :
    List.Forall₂ (Renamed f) (split [] l).1 (Section.split [] l').1 ∧
      merges l' = (merges l).rename f := by
  have hpairs : List.Forall₂ (fun s s' => s ∈ l ∧ s' ∈ l' ∧ Renamed f s s') l l' := by
    obtain ⟨hlength, hall⟩ := List.forall₂_iff_zip.mp h.pairs
    refine List.forall₂_iff_zip.mpr ⟨hlength, fun hmem => ?_⟩
    obtain ⟨hs, hs'⟩ := List.of_mem_zip hmem
    exact ⟨hs, hs', hall hmem⟩
  obtain ⟨hkept, hmerged⟩ := split_renamed (f := f) (fun s s' hs => hs.2.2.reference)
    (fun s s' t t' hs ht => h.digest_iff inj hs.1 hs.2.1 ht.1 ht.2.1 hs.2.2 ht.2.2)
    (.nil : List.Forall₂ _ [] []) hpairs
  exact ⟨hkept.imp fun _ _ hs => hs.2.2, hmerged⟩

/-- A pass that merges something leaves renamed sections behind. -/
theorem Parallel.afterPass (inj : Function.Injective f) (h : Parallel e f l l') (merged : merges l ≠ []) :
    Parallel e f (afterPass e l) (afterPass e l') := by
  obtain ⟨hkept, hmerges⟩ := h.split inj
  have hmerged' : merges l' ≠ [] := by
    rw [hmerges]
    exact fun hnil => merged (List.map_eq_nil_iff.mp hnil)
  refine
    { pairs := ?_
      coherent := h.coherent.afterPass e
      coherent' := h.coherent'.afterPass e
      numbered := numbered_afterPass h.coherent h.numbered
      numbered' := numbered_afterPass h.coherent' h.numbered'
      tell := fun current hcurrent => h.tell current (.pass merged hcurrent)
      tell' := fun current hcurrent => h.tell' current (.pass hmerged' hcurrent) }
  unfold Section.afterPass
  rw [List.forall₂_map_left_iff, List.forall₂_map_right_iff, hmerges]
  obtain ⟨hlength, hall⟩ := List.forall₂_iff_zip.mp hkept
  refine List.forall₂_iff_zip.mpr ⟨hlength, fun hmem => ?_⟩
  obtain ⟨hs, hs'⟩ := List.of_mem_zip hmem
  exact (hall hmem).retarget inj (h.coherent.wellFormed _ ((split_sublist [] l).subset hs))
    (h.coherent'.wellFormed _ ((split_sublist [] l').subset hs')) e _

theorem Parallel.mergePasses (inj : Function.Injective f) (h : Parallel e f l l') (passes : Nat)
    (aliases : Aliases) :
    List.Forall₂ (Renamed f) (mergePasses e passes l aliases).1
        (Section.mergePasses e passes l' (aliases.rename f)).1 ∧
      (Section.mergePasses e passes l' (aliases.rename f)).2
        = (Section.mergePasses e passes l aliases).2.rename f := by
  induction passes generalizing l l' aliases with
  | zero => exact ⟨h.pairs, rfl⟩
  | succ passes ih =>
    obtain ⟨-, hmerges⟩ := h.split inj
    rw [mergePasses_succ, mergePasses_succ]
    by_cases hnone : merges l = []
    · rw [if_pos hnone, if_pos (by rw [hmerges, hnone]; rfl)]
      exact ⟨h.pairs, rfl⟩
    · have hsome : merges l' ≠ [] := by
        rw [hmerges]
        exact fun hnil => hnone (List.map_eq_nil_iff.mp hnil)
      rw [if_neg hnone, if_neg hsome, hmerges, ← Aliases.compose_rename inj]
      exact ih (h.afterPass inj hnone) _

/-- Merging renamed sections leaves the renamings of what merging the sections leaves. -/
theorem Parallel.merge (inj : Function.Injective f) (h : Parallel e f l l') :
    List.Forall₂ (Renamed f) (merge e l).1 (Section.merge e l').1 ∧
      (Section.merge e l').2 = (Section.merge e l).2.rename f := by
  unfold Section.merge
  rw [h.pairs.length_eq]
  exact h.mergePasses inj _ []

end Section

end ObjectPack
