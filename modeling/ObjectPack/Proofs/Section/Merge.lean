import Mathlib.Data.List.Flatten
import Mathlib.Data.List.Perm.Subperm
import ObjectPack.Proofs.Patch
import ObjectPack.Proofs.Section.Coherent

/-!
# What merging keeps

Merging takes sections away and rewrites the slots that refer to them, pass after pass.  Two things
are shown of all passes together, `aliases` being the merges so far:

* what remains are sections of the start in their order, each with its bytes outside the slots, its
  alignment and its marks, and with the targets of its sites replaced by what stands in for them
  (`Merging.survivors`); no digest is trusted for that;
* if equal digests mean equal sections, every section of the start is stood in for in this sense by
  the one that its reference is an alias of (`Merging.Complete`).

A pass is taken apart in `split_sublist`, `split_references` and `split_merged`; the rest follows from
what these say of the references.
-/

namespace ObjectPack

namespace Aliases

variable {a b : Aliases} {r : Reference}

theorem resolve_of_lookup {new : Reference} (h : a.lookup r = some new) : a.resolve r = new := by
  rw [resolve, h]
  rfl

theorem resolve_of_not_mem (h : r ∉ a.map Prod.fst) : a.resolve r = r := by
  rw [resolve, Outcome.lookup_eq_none_iff.mpr h]
  rfl

/-- Composed aliases replace first by the one and then by the other. -/
theorem resolve_compose (a b : Aliases) (r : Reference) :
    (a.compose b).resolve r = b.resolve (a.resolve r) := by
  have hmap : (a.map fun p => (p.1, b.resolve p.2)).lookup r
      = (a.lookup r).map b.resolve := by
    induction a with
    | nil => rfl
    | cons p a ih =>
      rw [List.map_cons, List.lookup_cons, List.lookup_cons, ih]
      split <;> rfl
  have hcompose : a.compose b = (a.map fun p => (p.1, b.resolve p.2)) ++ b := rfl
  unfold resolve
  rw [hcompose, List.lookup_append, hmap]
  cases a.lookup r with
  | none => rfl
  | some new => rfl

end Aliases

namespace Section

/-! ### Standing in -/

/-- Whether a position of the content lies in no slot. -/
def Outside (s : Section) (i : Nat) : Prop :=
  ∀ site ∈ s.sites, i < site.offset ∨ site.offset + Pointer.slotSize ≤ i

/-- Whether `k` says what `s` says once the targets of all sites are replaced. -/
structure StandsFor (k : Section) (resolve : Reference → Reference) (s : Section) : Prop where
  alignment : k.alignment = s.alignment
  size : k.content.length = s.content.length
  content : ∀ i, s.Outside i → k.content[i]? = s.content[i]?
  sites : k.sites = s.sites.map fun site => { site with target := resolve site.target }
  marks : k.marks.Perm s.marks

/-- Whether two sections agree in everything but their references. -/
structure Same (s t : Section) : Prop where
  content : s.content = t.content
  alignment : s.alignment = t.alignment
  sites : s.sites = t.sites
  marks : s.marks.Perm t.marks

theorem StandsFor.outside {k s : Section} {f : Reference → Reference} (h : k.StandsFor f s) (i : Nat) :
    k.Outside i ↔ s.Outside i := by
  unfold Outside
  rw [h.sites]
  simp only [List.forall_mem_map]

theorem StandsFor.trans {l k s : Section} {f g : Reference → Reference} (hl : l.StandsFor g k)
    (hk : k.StandsFor f s) : l.StandsFor (fun r => g (f r)) s where
  alignment := hl.alignment.trans hk.alignment
  size := hl.size.trans hk.size
  content i hi := (hl.content i ((hk.outside i).mpr hi)).trans (hk.content i hi)
  sites := by
    rw [hl.sites, hk.sites, List.map_map]
    rfl
  marks := hl.marks.trans hk.marks

theorem Same.standsFor {s t : Section} (h : s.Same t) : s.StandsFor id t where
  alignment := h.alignment
  size := congrArg _ h.content
  content i _ := congrArg (·[i]?) h.content
  sites := h.sites.trans (List.map_id _).symm
  marks := h.marks

/-- Every section stands in for itself. -/
theorem standsFor_self (s : Section) : s.StandsFor id s :=
  Same.standsFor ⟨rfl, rfl, rfl, List.Perm.refl _⟩

/-! ### Rewriting targets -/

/-- The slots that are written again when references are replaced. -/
def movedSlots (s : Section) (e : Endian) (merged : Aliases) : List (Nat × Bytes) :=
  (s.sites.filter fun site => merged.resolve site.target ≠ site.target).map fun site =>
    (site.offset, placeholder e (merged.resolve site.target))

theorem retarget_content (s : Section) (e : Endian) (merged : Aliases) :
    (s.retarget e merged).content = patchAll s.content (s.movedSlots e merged) := by
  unfold retarget patchAll movedSlots
  rw [List.foldl_map]

theorem length_placeholder (e : Endian) (r : Reference) :
    (placeholder e r).length = Pointer.slotSize := Scalar.length_encode ..

/-- Each slot that is written again is that of a site. -/
theorem site_of_mem_movedSlots {s : Section} {e : Endian} {merged : Aliases} {slot : Nat × Bytes}
    (h : slot ∈ s.movedSlots e merged) :
    ∃ site ∈ s.sites, slot.1 = site.offset ∧ slot.2.length = Pointer.slotSize := by
  obtain ⟨site, hsite, rfl⟩ := List.mem_map.mp h
  exact ⟨site, List.mem_of_mem_filter hsite, rfl, length_placeholder e _⟩

theorem WellFormed.movedSlots_inside {s : Section} (h : s.WellFormed) (e : Endian)
    (merged : Aliases) : ∀ slot ∈ s.movedSlots e merged, slot.1 + slot.2.length ≤ s.content.length := by
  intro slot hslot
  obtain ⟨site, hsite, hoffset, hlength⟩ := site_of_mem_movedSlots hslot
  rw [hoffset, hlength]
  exact h.slotsInside site hsite

theorem WellFormed.retarget_standsFor {s : Section} (h : s.WellFormed) (e : Endian)
    (merged : Aliases) : (s.retarget e merged).StandsFor merged.resolve s where
  alignment := rfl
  size := by
    rw [retarget_content, length_patchAll (h.movedSlots_inside e merged)]
  content := by
    intro i hi
    rw [retarget_content]
    refine getElem?_patchAll (h.movedSlots_inside e merged) fun slot hslot => ?_
    obtain ⟨site, hsite, hoffset, hlength⟩ := site_of_mem_movedSlots hslot
    rw [hoffset, hlength]
    exact hi site hsite
  sites := rfl
  marks := List.Perm.refl _

theorem WellFormed.retarget {s : Section} (h : s.WellFormed) (e : Endian) (merged : Aliases) :
    (s.retarget e merged).WellFormed where
  power := h.power
  slots := List.pairwise_map.mpr h.slots
  slotsInside := by
    rw [(h.retarget_standsFor e merged).size, (h.retarget_standsFor e merged).sites]
    exact List.forall_mem_map.mpr h.slotsInside
  marksInside := by
    rw [(h.retarget_standsFor e merged).size]
    exact h.marksInside

/-! ### Splitting -/

theorem split_sublist (seen : List (Digest × Reference)) (sections : List Section) :
    (split seen sections).1.Sublist sections := by
  induction sections generalizing seen with
  | nil => exact List.Sublist.refl _
  | cons s rest ih =>
    rw [split]
    split
    · exact (ih seen).cons _
    · exact (ih _).cons_cons _

/-- Every section is kept or merged, and none is both. -/
theorem split_references (seen : List (Digest × Reference)) (sections : List Section) :
    ((split seen sections).1.map (·.reference) ++ (split seen sections).2.map Prod.fst).Perm
      (sections.map (·.reference)) := by
  induction sections generalizing seen with
  | nil => exact List.Perm.refl _
  | cons s rest ih =>
    rw [split]
    split
    · exact List.perm_middle.trans ((ih seen).cons _)
    · exact (ih _).cons _

/-- A merged section has the digest of the one that stands in for it. -/
theorem split_merged {seen : List (Digest × Reference)} {sections : List Section}
    {old new : Reference} (h : (old, new) ∈ (split seen sections).2) :
    ∃ s ∈ sections, s.reference = old ∧ ((s.digest, new) ∈ seen ∨
      ∃ first ∈ (split seen sections).1, first.reference = new ∧ first.digest = s.digest) := by
  induction sections generalizing seen with
  | nil => cases h
  | cons s rest ih =>
    rw [split] at h ⊢
    split at h
    · rename_i first hfirst
      rcases List.mem_cons.mp h with heq | h
      · cases heq
        exact ⟨s, List.mem_cons_self, rfl, Or.inl (Outcome.mem_of_lookup hfirst)⟩
      · obtain ⟨t, ht, hold, hnew⟩ := ih h
        refine ⟨t, List.mem_cons_of_mem _ ht, hold, ?_⟩
        simpa only [hfirst] using hnew
    · rename_i hnone
      obtain ⟨t, ht, hold, hnew⟩ := ih h
      refine ⟨t, List.mem_cons_of_mem _ ht, hold, ?_⟩
      rcases hnew with hseen | ⟨first, hfirst, href, hdigest⟩
      · rcases List.mem_cons.mp hseen with heq | hseen
        · -- The first of its digest is the section at the head.
          obtain ⟨hdigest, rfl⟩ := Prod.ext_iff.mp heq
          exact Or.inr ⟨s, List.mem_cons_self, rfl, hdigest.symm⟩
        · exact Or.inl hseen
      · exact Or.inr ⟨first, List.mem_cons_of_mem _ hfirst, href, hdigest⟩

/-! ### One pass -/

/-- The merges of one pass. -/
def merges (sections : List Section) : Aliases := (split [] sections).2

/-- What remains after one pass. -/
def afterPass (e : Endian) (sections : List Section) : List Section :=
  (split [] sections).1.map (·.retarget e (merges sections))

variable {sections : List Section}

theorem eq_of_reference_eq (h : Coherent sections) {s t : Section} (hs : s ∈ sections)
    (ht : t ∈ sections) (heq : s.reference = t.reference) : s = t :=
  h.eq_of_mem_names hs ht s.reference_mem_names (heq ▸ t.reference_mem_names)

theorem merges_resolve_of_not_mem {r : Reference} (h : r ∉ sections.map (·.reference)) :
    (merges sections).resolve r = r := by
  refine Aliases.resolve_of_not_mem fun hmem => h ?_
  exact (split_references [] sections).subset (List.mem_append_right _ hmem)

theorem merges_resolve_of_kept (h : Coherent sections) {s : Section}
    (hs : s ∈ (split [] sections).1) : (merges sections).resolve s.reference = s.reference := by
  have hnodup := (split_references [] sections).nodup_iff.mpr h.referencesOnce
  have hdisjoint := (List.nodup_append.mp hnodup).2.2
  exact Aliases.resolve_of_not_mem fun hmem =>
    hdisjoint _ (List.mem_map_of_mem hs) _ hmem rfl

/-- What stands in for a section after a pass is kept and has its digest. -/
theorem exists_kept (h : Coherent sections) {s : Section} (hs : s ∈ sections) :
    ∃ first ∈ (split [] sections).1,
      first.reference = (merges sections).resolve s.reference ∧ first.digest = s.digest := by
  cases hlookup : (merges sections).lookup s.reference with
  | some new =>
    obtain ⟨t, ht, href, hseen | hfirst⟩ := split_merged (Outcome.mem_of_lookup hlookup)
    · cases hseen
    · rw [Aliases.resolve_of_lookup hlookup]
      exact eq_of_reference_eq h ht hs href ▸ hfirst
  | none =>
    have hnot := Outcome.lookup_eq_none_iff.mp hlookup
    have hkept := (split_references [] sections).symm.subset (List.mem_map_of_mem hs)
    obtain ⟨t, ht, heq⟩ := List.mem_map.mp ((List.mem_append.mp hkept).resolve_right hnot)
    have hsub := (split_sublist [] sections).subset ht
    obtain rfl := eq_of_reference_eq h hsub hs heq
    exact ⟨t, ht, (Aliases.resolve_of_not_mem hnot).symm, rfl⟩

/-- A pass keeps sections coherent. -/
theorem Coherent.afterPass (h : Coherent sections) (e : Endian) :
    Coherent (afterPass e sections) where
  wellFormed := by
    refine List.forall_mem_map.mpr fun s hs => ?_
    exact (h.wellFormed s ((split_sublist [] sections).subset hs)).retarget e _
  namesOnce := by
    have hnames : (Section.afterPass e sections).flatMap names
        = (split [] sections).1.flatMap names := List.flatMap_map ..
    rw [hnames]
    exact h.namesOnce.sublist ((split_sublist [] sections).flatMap _)

/-! ### All passes -/

/-- What passes have made of the sections of the start. -/
structure Merging (originals sections : List Section) (aliases : Aliases) : Prop where
  coherent : Coherent sections
  order : (sections.map (·.reference)).Sublist (originals.map (·.reference))
  survivors : ∀ k ∈ sections, aliases.resolve k.reference = k.reference ∧
    ∃ s ∈ originals, s.reference = k.reference ∧ k.StandsFor aliases.resolve s
  others : ∀ r, r ∉ originals.map (·.reference) → aliases.resolve r = r
  resolved : ∀ s ∈ originals, ∃ k ∈ sections, k.reference = aliases.resolve s.reference

/-- Whether every section of the start is stood in for. -/
def Complete (originals sections : List Section) (aliases : Aliases) : Prop :=
  ∀ s ∈ originals, ∃ k ∈ sections,
    k.reference = aliases.resolve s.reference ∧ k.StandsFor aliases.resolve s

theorem merging_start (h : Coherent sections) : Merging sections sections [] where
  coherent := h
  order := List.Sublist.refl _
  survivors k hk := ⟨rfl, k, hk, rfl, k.standsFor_self⟩
  others _ _ := rfl
  resolved s hs := ⟨s, hs, rfl⟩

theorem complete_start (sections : List Section) : Complete sections sections [] :=
  fun s hs => ⟨s, hs, rfl, s.standsFor_self⟩

variable {originals : List Section} {aliases : Aliases}

theorem StandsFor.compose {l k s : Section} {merged : Aliases}
    (hl : l.StandsFor merged.resolve k) (hk : k.StandsFor aliases.resolve s) :
    l.StandsFor (aliases.compose merged).resolve s := by
  have h := hl.trans hk
  rwa [show (fun r => merged.resolve (aliases.resolve r)) = (aliases.compose merged).resolve from
    funext fun r => (Aliases.resolve_compose aliases merged r).symm] at h

theorem Merging.afterPass (h : Merging originals sections aliases) (e : Endian) :
    Merging originals (afterPass e sections) (aliases.compose (merges sections)) where
  coherent := h.coherent.afterPass e
  order := by
    have hmap : (Section.afterPass e sections).map (·.reference)
        = (split [] sections).1.map (·.reference) := List.map_map ..
    rw [hmap]
    exact ((split_sublist [] sections).map _).trans h.order
  survivors := by
    refine List.forall_mem_map.mpr fun k hk => ?_
    have hk' := (split_sublist [] sections).subset hk
    obtain ⟨hself, s, hs, href, hstands⟩ := h.survivors k hk'
    refine ⟨?_, s, hs, href, ?_⟩
    · show (aliases.compose (merges sections)).resolve k.reference = k.reference
      rw [Aliases.resolve_compose, hself]
      exact merges_resolve_of_kept h.coherent hk
    · exact ((h.coherent.wellFormed k hk').retarget_standsFor e _).compose hstands
  others r hr := by
    rw [Aliases.resolve_compose, h.others r hr]
    exact merges_resolve_of_not_mem fun hmem => hr (h.order.subset hmem)
  resolved s hs := by
    obtain ⟨k, hk, href⟩ := h.resolved s hs
    obtain ⟨first, hfirst, hfirst', -⟩ := exists_kept h.coherent hk
    refine ⟨first.retarget e (merges sections), List.mem_map_of_mem hfirst, ?_⟩
    rw [Aliases.resolve_compose, ← href]
    exact hfirst'

theorem Complete.afterPass (h : Complete originals sections aliases)
    (hcoherent : Coherent sections) (e : Endian)
    (same : ∀ s ∈ sections, ∀ t ∈ sections, s.digest = t.digest → s.Same t) :
    Complete originals (afterPass e sections) (aliases.compose (merges sections)) := by
  intro s hs
  obtain ⟨k, hk, href, hstands⟩ := h s hs
  obtain ⟨first, hfirst, hfirst', hdigest⟩ := exists_kept hcoherent hk
  have hsub := (split_sublist [] sections).subset hfirst
  refine ⟨first.retarget e (merges sections), List.mem_map_of_mem hfirst, ?_, ?_⟩
  · rw [Aliases.resolve_compose, ← href]
    exact hfirst'
  · have hretarget := (hcoherent.wellFormed first hsub).retarget_standsFor e (merges sections)
    exact (hretarget.trans (same first hsub k hk hdigest).standsFor).compose hstands

/-- What stands in for a reference stands for itself. -/
theorem Merging.resolve_resolve (h : Merging originals sections aliases) (r : Reference) :
    aliases.resolve (aliases.resolve r) = aliases.resolve r := by
  by_cases hr : r ∈ originals.map (·.reference)
  · obtain ⟨s, hs, rfl⟩ := List.mem_map.mp hr
    obtain ⟨k, hk, href⟩ := h.resolved s hs
    rw [← href]
    exact (h.survivors k hk).1
  · rw [h.others r hr, h.others r hr]

/-- Marks keep their references. -/
theorem Merging.resolve_mark (h : Merging originals sections aliases) (hcoherent : Coherent originals)
    {s : Section} (hs : s ∈ originals) {mark : Mark} (hmark : mark ∈ s.marks) :
    aliases.resolve mark.reference = mark.reference := by
  refine h.others _ fun hmem => ?_
  obtain ⟨t, ht, heq⟩ := List.mem_map.mp hmem
  exact hcoherent.mark_ne hs ht hmark heq.symm

/-- A reference that means something after merging did so before. -/
theorem Merging.exists_name (h : Merging originals sections aliases) {r : Reference}
    (hr : aliases.resolve r ∈ sections.flatMap names) : ∃ s ∈ originals, r ∈ s.names := by
  by_cases hnamed : r ∈ originals.map (·.reference)
  · obtain ⟨s, hs, rfl⟩ := List.mem_map.mp hnamed
    exact ⟨s, hs, s.reference_mem_names⟩
  · rw [h.others r hnamed] at hr
    obtain ⟨k, hk, hname⟩ := List.mem_flatMap.mp hr
    obtain ⟨-, s, hs, href, hstands⟩ := h.survivors k hk
    refine ⟨s, hs, ?_⟩
    rcases List.mem_cons.mp hname with rfl | hname
    · exact href ▸ s.reference_mem_names
    · obtain ⟨mark, hmark, rfl⟩ := List.mem_map.mp hname
      exact mark_mem_names (hstands.marks.subset hmark)

/-- A section that no other one stands in for stands in for itself. -/
theorem Merging.standsIn_of_kept (h : Merging originals sections aliases)
    (hcoherent : Coherent originals) {s : Section} (hs : s ∈ originals)
    (kept : aliases.resolve s.reference = s.reference) :
    ∃ k ∈ sections, k.reference = aliases.resolve s.reference ∧ k.StandsFor aliases.resolve s := by
  obtain ⟨k, hk, href⟩ := h.resolved s hs
  obtain ⟨-, t, ht, hreft, hstands⟩ := h.survivors k hk
  obtain rfl := eq_of_reference_eq hcoherent ht hs (hreft.trans (href.trans kept))
  exact ⟨k, hk, href, hstands⟩

/-- What remains are the sections that stand for themselves. -/
theorem Merging.references_eq (h : Merging originals sections aliases)
    (hcoherent : Coherent originals) :
    sections.map (·.reference)
      = (originals.map (·.reference)).filter fun r => aliases.resolve r = r := by
  have hkept : (sections.map (·.reference)).filter (fun r => aliases.resolve r = r)
      = sections.map (·.reference) := by
    refine List.filter_eq_self.mpr (List.forall_mem_map.mpr fun k hk => ?_)
    exact decide_eq_true (h.survivors k hk).1
  have hsub := h.order.filter fun r => decide (aliases.resolve r = r)
  rw [hkept] at hsub
  refine hsub.eq_of_length_le ?_
  have hnodup : ((originals.map (·.reference)).filter fun r => aliases.resolve r = r).Nodup :=
    hcoherent.referencesOnce.filter _
  refine (List.subperm_of_subset hnodup fun r hr => ?_).length_le
  obtain ⟨hmem, hself⟩ := List.mem_filter.mp hr
  obtain ⟨s, hs, rfl⟩ := List.mem_map.mp hmem
  obtain ⟨k, hk, href⟩ := h.resolved s hs
  exact List.mem_map.mpr ⟨k, hk, href.trans (of_decide_eq_true hself)⟩

/-- Whether merging passes lead from some sections to others. -/
inductive Passed (e : Endian) : List Section → List Section → Prop
  | start (sections : List Section) : Passed e sections sections
  | pass {sections later : List Section} (merged : merges sections ≠ [])
      (rest : Passed e (afterPass e sections) later) : Passed e sections later

/-- Whether sections with equal digests agree, before every pass of merging. -/
def DigestsTell (e : Endian) (sections : List Section) : Prop :=
  ∀ current, Passed e sections current →
    ∀ s ∈ current, ∀ t ∈ current, s.digest = t.digest → s.Same t

instance (s t : Section) : Decidable (s.Same t) :=
  decidable_of_iff
    (s.content = t.content ∧ s.alignment = t.alignment ∧ s.sites = t.sites ∧ s.marks.Perm t.marks)
    ⟨fun ⟨content, alignment, sites, marks⟩ => ⟨content, alignment, sites, marks⟩,
      fun h => ⟨h.content, h.alignment, h.sites, h.marks⟩⟩

theorem Same.symm {s t : Section} (h : s.Same t) : t.Same s :=
  ⟨h.content.symm, h.alignment.symm, h.sites.symm, h.marks.symm⟩

/-- Checks that equal digests mean equal sections, pass by pass; so many passes have to be enough. -/
def digestsTell (e : Endian) : Nat → List Section → Bool
  | 0, _ => false
  | passes + 1, sections =>
    decide (sections.Pairwise fun s t => s.Same t ∨ s.digest ≠ t.digest)
      && (merges sections = [] || digestsTell e passes (afterPass e sections))

theorem digestsTell_of_check {e : Endian} {passes : Nat} {sections : List Section}
    (h : digestsTell e passes sections = true) : DigestsTell e sections := by
  induction passes generalizing sections with
  | zero => cases h
  | succ passes ih =>
    rw [digestsTell, Bool.and_eq_true, decide_eq_true_iff, Bool.or_eq_true, decide_eq_true_iff] at h
    intro current hpassed
    cases hpassed with
    | start =>
      intro s hs t ht hdigest
      by_cases heq : s = t
      · exact heq ▸ ⟨rfl, rfl, rfl, List.Perm.refl _⟩
      · have hsymm : Std.Symm fun s t : Section => s.Same t ∨ s.digest ≠ t.digest :=
          ⟨fun _ _ h => h.imp Same.symm Ne.symm⟩
        exact (h.1.forall hs ht heq).resolve_right (not_not.mpr hdigest)
    | pass hmerged hrest => exact ih (h.2.resolve_left hmerged) current hrest

theorem mergePasses_succ (e : Endian) (passes : Nat) (sections : List Section)
    (aliases : Aliases) :
    mergePasses e (passes + 1) sections aliases
      = if merges sections = [] then (sections, aliases)
        else mergePasses e passes (afterPass e sections) (aliases.compose (merges sections)) := by
  rw [mergePasses]
  split
  · rename_i hnone
    rw [if_pos (by rw [merges, hnone])]
  · rename_i hsome hsplit
    have hmerges : merges sections = _ := congrArg Prod.snd hsplit
    rw [if_neg (fun hnil => hsome (hmerges.symm.trans hnil)), afterPass, hmerges, hsplit]

/-- What every pass keeps, all passes together keep. -/
theorem mergePasses_keeps {e : Endian} {P : List Section → Aliases → Prop}
    (step : ∀ sections aliases, P sections aliases →
      P (afterPass e sections) (aliases.compose (merges sections)))
    (passes : Nat) (start : P sections aliases) :
    P (mergePasses e passes sections aliases).1 (mergePasses e passes sections aliases).2 := by
  induction passes generalizing sections aliases with
  | zero => exact start
  | succ passes ih =>
    rw [mergePasses_succ]
    split
    · exact start
    · exact ih (step _ _ start)

/-- Passes keep what has been merged so far. -/
theorem Merging.mergePasses (h : Merging originals sections aliases) (e : Endian) (passes : Nat) :
    Merging originals (mergePasses e passes sections aliases).1
      (mergePasses e passes sections aliases).2 :=
  mergePasses_keeps (P := Merging originals) (fun _ _ h => h.afterPass e) passes h

theorem Complete.mergePasses (h : Complete originals sections aliases)
    (hcoherent : Coherent sections) {e : Endian} (tell : DigestsTell e sections) (passes : Nat) :
    Complete originals (mergePasses e passes sections aliases).1
      (mergePasses e passes sections aliases).2 := by
  induction passes generalizing sections aliases with
  | zero => exact h
  | succ passes ih =>
    rw [mergePasses_succ]
    split
    · exact h
    · rename_i hmerged
      refine ih (h.afterPass hcoherent e (tell sections (.start sections)))
        (hcoherent.afterPass e) fun current hcurrent => ?_
      exact tell current (.pass hmerged hcurrent)

/-- What merging makes of coherent sections. -/
theorem merge_merging (h : Coherent sections) (e : Endian) :
    Merging sections (merge e sections).1 (merge e sections).2 :=
  (merging_start h).mergePasses e _

theorem merge_complete (h : Coherent sections) {e : Endian} (tell : DigestsTell e sections) :
    Complete sections (merge e sections).1 (merge e sections).2 :=
  (complete_start sections).mergePasses h tell _

end Section

end ObjectPack
