import Mathlib.Logic.Function.Iterate
import ObjectPack.Proofs.Section.Merge

/-!
# Passes of merging

Merging repeats passes until one merges nothing.  Every other pass takes a section away, so there are at
most as many of them as sections are merged (`merge_passes`), and where no more is merged all digests
are different (`digests_differ`).

Two more things are kept by all passes.  The slots of all sections hold the numbers of the references
that their sites refer to, before and after references are replaced (`merge_numbered`).  And a section
is only ever merged into one that comes before it (`merge_earlier`).
-/

namespace ObjectPack.Section

variable {sections originals : List Section} {aliases : Aliases} {e : Endian}

/-! ### Slots -/

/-- Whether every slot of a section holds the number of the reference that its site refers to. -/
def Numbered (e : Endian) (s : Section) : Prop :=
  ∀ site ∈ s.sites, s.content.HasAt site.offset (placeholder e site.target)

/-- Whether the slots of two sites have no byte in common. -/
def SitesApart (a b : Site) : Prop :=
  a.offset + Pointer.slotSize ≤ b.offset ∨ b.offset + Pointer.slotSize ≤ a.offset

instance : Std.Symm SitesApart := ⟨fun _ _ h => h.symm⟩

theorem WellFormed.eq_or_apart {s : Section} (h : s.WellFormed) {a b : Site} (ha : a ∈ s.sites)
    (hb : b ∈ s.sites) : a = b ∨ SitesApart a b := by
  by_cases heq : a = b
  · exact Or.inl heq
  · have hall : s.sites.Pairwise SitesApart := h.slots.imp Or.inl
    exact Or.inr (hall.forall ha hb heq)

theorem mem_movedSlots {s : Section} {merged : Aliases} {slot : Nat × Bytes} :
    slot ∈ s.movedSlots e merged ↔ ∃ site ∈ s.sites, merged.resolve site.target ≠ site.target ∧
      slot = (site.offset, placeholder e (merged.resolve site.target)) := by
  unfold movedSlots
  simp only [List.mem_map, List.mem_filter, decide_eq_true_eq, and_assoc]
  exact exists_congr fun site => and_congr_right fun _ => and_congr_right fun _ => eq_comm

/-- Replacing references replaces their numbers, and no others. -/
theorem Numbered.retarget {s : Section} (h : s.Numbered e) (wellFormed : s.WellFormed)
    (merged : Aliases) : (s.retarget e merged).Numbered e := by
  have hinside := wellFormed.movedSlots_inside e merged
  refine List.forall_mem_map.mpr fun site hsite => ?_
  rw [retarget_content]
  show Bytes.HasAt _ site.offset (placeholder e (merged.resolve site.target))
  by_cases hmoved : merged.resolve site.target = site.target
  · rw [hmoved]
    intro i hi
    rw [getElem?_patchAll hinside, h site hsite i hi]
    -- A slot that is written again belongs to another site.
    intro slot hslot
    obtain ⟨other, hother, hchanged, rfl⟩ := mem_movedSlots.mp hslot
    rw [length_placeholder] at hi ⊢
    rcases wellFormed.eq_or_apart hsite hother with rfl | hbefore | hbehind
    · exact absurd hmoved hchanged
    · exact Or.inl (by omega)
    · exact Or.inr (by omega)
  · refine patchAll_hasAt hinside (fun x hx y hy => ?_)
      (x := (site.offset, placeholder e (merged.resolve site.target)))
      (mem_movedSlots.mpr ⟨site, hsite, hmoved, rfl⟩)
    obtain ⟨a, ha, -, rfl⟩ := mem_movedSlots.mp hx
    obtain ⟨b, hb, -, rfl⟩ := mem_movedSlots.mp hy
    rcases wellFormed.eq_or_apart ha hb with rfl | hapart
    · exact Or.inl rfl
    · right
      unfold SlotsApart
      rwa [length_placeholder, length_placeholder]

/-- A pass keeps the numbers in the slots. -/
theorem numbered_afterPass (coherent : Coherent sections) (numbered : ∀ s ∈ sections, s.Numbered e) :
    ∀ s ∈ afterPass e sections, s.Numbered e := by
  refine List.forall_mem_map.mpr fun s hs => ?_
  have hmem := (split_sublist [] sections).subset hs
  exact (numbered s hmem).retarget (coherent.wellFormed s hmem) _

/-- The slots of what remains hold the numbers of what they refer to. -/
theorem merge_numbered (coherent : Coherent sections) (numbered : ∀ s ∈ sections, s.Numbered e) :
    ∀ k ∈ (merge e sections).1, k.Numbered e := by
  have hkeeps : Coherent (merge e sections).1 ∧ ∀ k ∈ (merge e sections).1, k.Numbered e :=
    mergePasses_keeps
      (P := fun sections _ => Coherent sections ∧ ∀ s ∈ sections, s.Numbered e)
      (fun sections aliases h => ⟨h.1.afterPass e, numbered_afterPass h.1 h.2⟩) _ ⟨coherent, numbered⟩
  exact hkeeps.2

/-! ### The end of merging -/

/-- What a pass does not merge remains. -/
theorem length_afterPass (e : Endian) (sections : List Section) :
    (afterPass e sections).length + (merges sections).length = sections.length := by
  have hlength := (split_references [] sections).length_eq
  rw [List.length_append, List.length_map, List.length_map, List.length_map] at hlength
  rw [afterPass, List.length_map, merges]
  exact hlength

/-- A pass that merges nothing changes nothing. -/
theorem afterPass_eq_self (h : merges sections = []) (e : Endian) : afterPass e sections = sections := by
  have hretarget : ∀ s : Section, s.retarget e [] = s := by
    intro s
    have hnone : (s.sites.filter fun site => Aliases.resolve [] site.target ≠ site.target) = [] :=
      List.filter_eq_nil_iff.mpr fun site _ hne => of_decide_eq_true hne rfl
    rw [retarget, hnone]
    simp [Aliases.resolve]
  have hlength := length_afterPass e sections
  rw [h, List.length_nil, Nat.add_zero, afterPass, List.length_map] at hlength
  rw [afterPass, h, (split_sublist [] sections).eq_of_length hlength]
  simp [hretarget]

/-- What a pass merges into is not merged by this pass. -/
theorem merges_settled (h : Coherent sections) :
    ∀ p ∈ merges sections, p.2 ∉ (merges sections).map Prod.fst := by
  rintro ⟨old, new⟩ hp hmem
  have hnodup := (split_references [] sections).nodup_iff.mpr h.referencesOnce
  obtain ⟨s, -, -, hseen | ⟨first, hfirst, rfl, -⟩⟩ := split_merged hp
  · cases hseen
  · exact (List.nodup_append.mp hnodup).2.2 _ (List.mem_map_of_mem hfirst) _ hmem rfl

/-- A section whose digest has been met is merged. -/
theorem lookup_of_split {seen : List (Digest × Reference)} (h : (split seen sections).2 = []) :
    ∀ s ∈ sections, seen.lookup s.digest = none := by
  induction sections generalizing seen with
  | nil => exact fun s hs => absurd hs List.not_mem_nil
  | cons first rest ih =>
    rw [split] at h
    split at h
    · cases h
    · rename_i hnone
      refine List.forall_mem_cons.mpr ⟨hnone, fun s hs => ?_⟩
      have hlater := ih h s hs
      rw [List.lookup_cons] at hlater
      split at hlater
      · cases hlater
      · exact hlater

/-- Where a pass merges nothing all digests are different. -/
theorem digests_differ_of_split {seen : List (Digest × Reference)}
    (h : (split seen sections).2 = []) :
    sections.Pairwise fun s t => s.digest ≠ t.digest := by
  induction sections generalizing seen with
  | nil => exact List.Pairwise.nil
  | cons first rest ih =>
    rw [split] at h
    split at h
    · cases h
    · refine List.pairwise_cons.mpr ⟨fun s hs heq => ?_, ih h⟩
      have hnone := lookup_of_split h s hs
      rw [← heq, List.lookup_cons_self] at hnone
      cases hnone

/-- With so many passes as there are sections merging comes to its end; each of the passes that it
takes merges something. -/
theorem mergePasses_passes {passes : Nat} (enough : sections.length ≤ passes) :
    ∃ n, (afterPass e)^[n] sections = (mergePasses e passes sections aliases).1 ∧
      n + (mergePasses e passes sections aliases).1.length ≤ sections.length ∧
      (∀ i < n, merges ((afterPass e)^[i] sections) ≠ []) ∧
      merges (mergePasses e passes sections aliases).1 = [] := by
  induction passes generalizing sections aliases with
  | zero =>
    obtain rfl : sections = [] := List.length_eq_zero_iff.mp (Nat.le_zero.mp enough)
    exact ⟨0, rfl, Nat.le_refl _, fun i hi => absurd hi (Nat.not_lt_zero i), rfl⟩
  | succ passes ih =>
    rw [mergePasses_succ]
    have hlength := length_afterPass e sections
    split
    · rename_i hnone
      exact ⟨0, rfl, Nat.le_of_eq (Nat.zero_add _), fun i hi => absurd hi (Nat.not_lt_zero i), hnone⟩
    · rename_i hsome
      have hpos := List.length_pos_iff.mpr hsome
      obtain ⟨n, hresult, hcount, hmerges, hend⟩ :=
        @ih (afterPass e sections) (aliases.compose (merges sections)) (by omega)
      refine ⟨n + 1, hresult, by omega, fun i hi => ?_, hend⟩
      cases i with
      | zero => exact hsome
      | succ i => exact hmerges i (Nat.lt_of_succ_lt_succ hi)

/-- Merging takes at most as many passes as it merges sections, and after them nothing is left to be
merged. -/
theorem merge_passes (e : Endian) (sections : List Section) :
    ∃ n, (afterPass e)^[n] sections = (merge e sections).1 ∧
      n + (merge e sections).1.length ≤ sections.length ∧
      (∀ i < n, merges ((afterPass e)^[i] sections) ≠ []) ∧ merges (merge e sections).1 = [] :=
  mergePasses_passes (Nat.le_refl _)

/-- Of what remains no two sections have the same digest. -/
theorem digests_differ (e : Endian) (sections : List Section) :
    (merge e sections).1.Pairwise fun s t => s.digest ≠ t.digest := by
  obtain ⟨-, -, -, -, hend⟩ := merge_passes e sections
  exact digests_differ_of_split hend

/-! ### The first of each class -/

/-- A section is merged into one that comes before it. -/
theorem split_earlier {seen : List (Digest × Reference)} {old new : Reference}
    (h : (old, new) ∈ (split seen sections).2) :
    (∃ digest, (digest, new) ∈ seen) ∨ [new, old].Sublist (sections.map (·.reference)) := by
  induction sections generalizing seen with
  | nil => cases h
  | cons s rest ih =>
    rw [split] at h
    rw [List.map_cons]
    split at h
    · rename_i first hfirst
      rcases List.mem_cons.mp h with heq | h
      · cases heq
        exact Or.inl ⟨s.digest, Outcome.mem_of_lookup hfirst⟩
      · exact (ih h).imp_right fun hsub => hsub.cons _
    · rcases ih h with ⟨digest, hmem⟩ | hsub
      · rcases List.mem_cons.mp hmem with heq | hmem
        · -- The section at the head is the one that is merged into.
          obtain ⟨-, rfl⟩ := Prod.ext_iff.mp heq
          have hold : old ∈ rest.map (·.reference) :=
            (split_references _ rest).subset
              (List.mem_append_right _ (List.mem_map_of_mem (f := Prod.fst) h))
          exact Or.inr ((List.singleton_sublist.mpr hold).cons_cons _)
        · exact Or.inl ⟨digest, hmem⟩
      · exact Or.inr (hsub.cons _)

/-- A pass merges sections into ones that come before them. -/
theorem merges_earlier {p : Reference × Reference} (h : p ∈ merges sections) :
    [p.2, p.1].Sublist (sections.map (·.reference)) := by
  rcases split_earlier h with ⟨digest, hseen⟩ | hsub
  · cases hseen
  · exact hsub

theorem idxOf_lt_of_sublist {l : List Reference} {a b : Reference} (nodup : l.Nodup)
    (h : [a, b].Sublist l) : l.idxOf a < l.idxOf b := by
  obtain ⟨before, after, rfl, ha, hb⟩ := List.cons_sublist_iff.mp h
  have hafter := List.singleton_sublist.mp hb
  have hnot : b ∉ before := fun hmem => (List.nodup_append.mp nodup).2.2 b hmem b hafter rfl
  rw [List.idxOf_append_of_mem ha, List.idxOf_append_of_notMem hnot]
  have hlt := List.idxOf_lt_length_of_mem ha
  omega

/-- What stands in for a section is registered before it, if it is not the section itself. -/
theorem merge_earlier (coherent : Coherent originals) (e : Endian) {s : Section}
    (hs : s ∈ originals) :
    (originals.map (·.reference)).idxOf ((merge e originals).2.resolve s.reference)
      ≤ (originals.map (·.reference)).idxOf s.reference := by
  have hkeeps : Merging originals (merge e originals).1 (merge e originals).2 ∧
      ∀ s ∈ originals, (originals.map (·.reference)).idxOf
        ((merge e originals).2.resolve s.reference)
          ≤ (originals.map (·.reference)).idxOf s.reference := by
    refine mergePasses_keeps (P := fun sections aliases => Merging originals sections aliases ∧
      ∀ s ∈ originals, (originals.map (·.reference)).idxOf (aliases.resolve s.reference)
        ≤ (originals.map (·.reference)).idxOf s.reference)
      (fun sections aliases h => ⟨h.1.afterPass e, fun s hs => ?_⟩) _
      ⟨merging_start coherent, fun s _ => Nat.le_refl _⟩
    rw [Aliases.resolve_compose]
    refine Nat.le_trans ?_ (h.2 s hs)
    cases hlookup : (merges sections).lookup (aliases.resolve s.reference) with
    | none =>
      rw [Aliases.resolve, hlookup]
      exact Nat.le_refl _
    | some new =>
      rw [Aliases.resolve_of_lookup hlookup]
      have hearlier := (merges_earlier (Outcome.mem_of_lookup hlookup)).trans h.1.order
      exact Nat.le_of_lt (idxOf_lt_of_sublist coherent.referencesOnce hearlier)
  exact hkeeps.2 s hs

end ObjectPack.Section
