import Mathlib.Data.Set.Finite.Basic
import Mathlib.Logic.Relation
import ObjectPack.Proofs.Draft.Placeholder
import ObjectPack.Proofs.Link.Graph
import ObjectPack.Proofs.Section.Pass

/-!
# Sharing

How far merging goes.  Two blocks are identical if they agree in all but the references of their sites,
and where these differ they lead to blocks that are identical again (`Section.Identical`).  Where blocks
do not refer to each other in circles, identical blocks always end up as one: their targets are merged
first, with that their sites become equal, and the digests of what is left are different
(`Section.Identical.resolve_eq`).  Together with what merging keeps it merges exactly the identical
blocks, into the first of them (`Draft.link_sharesAll`).

A block with a mark in it is never merged, as its marks have to stay apart.  So blocks that differ in
nothing but in which of two such blocks they refer to are both kept, although nothing but the marks
tells them apart (`Draft.link_keeps_alike`).
-/

namespace ObjectPack.Section

open Relation

/-! ### Identical sections -/

/-- Whether two sites are written alike and lead to the same reference or to related sections. -/
def SitesMatch (sections : List Section) (R : Section → Section → Prop) (a b : Site) : Prop :=
  a.offset = b.offset ∧ a.encoding = b.encoding ∧ (a.target = b.target ∨
    ∃ u ∈ sections, ∃ v ∈ sections, u.reference = a.target ∧ v.reference = b.target ∧ R u v)

/-- Whether two sections agree, up to a relation between the sections that they refer to. -/
structure Matches (sections : List Section) (R : Section → Section → Prop) (s t : Section) :
    Prop where
  alignment : s.alignment = t.alignment
  size : s.content.length = t.content.length
  content : ∀ i, s.Outside i → s.content[i]? = t.content[i]?
  sites : List.Forall₂ (SitesMatch sections R) s.sites t.sites

/-- Whether two sections agree as far as their sites lead; marks are not looked at. -/
def Alike (sections : List Section) (s t : Section) : Prop :=
  ∃ R, (∀ u v, R u v → Matches sections R u v) ∧ R s t

/-- Whether two sections without marks agree as far as their sites lead: to the same references and to
other sections without marks. -/
def Identical (sections : List Section) (s t : Section) : Prop :=
  ∃ R, (∀ u v, R u v → u.marks = [] ∧ v.marks = [] ∧ Matches sections R u v) ∧ R s t

/-- Whether a section has a site that refers to another one. -/
def RefersTo (sections : List Section) (s t : Section) : Prop :=
  s ∈ sections ∧ t ∈ sections ∧ ∃ site ∈ s.sites, site.target = t.reference

/-- Whether no section leads back to itself. -/
def Acyclic (sections : List Section) : Prop :=
  ∀ s ∈ sections, ¬ TransGen (RefersTo sections) s s

variable {sections : List Section} {e : Endian}

/-- Induction along the references of sections: what holds of a section if it holds of all that it
refers to holds of all sections. -/
theorem Acyclic.induction (h : Acyclic sections) {P : Section → Prop}
    (step : ∀ s ∈ sections, (∀ t, RefersTo sections s t → P t) → P s) : ∀ s ∈ sections, P s := by
  have hfinite : Finite {s // s ∈ sections} := (List.finite_toSet sections).to_subtype
  have htrans : IsTrans {s // s ∈ sections} fun t s => TransGen (RefersTo sections) s.1 t.1 :=
    ⟨fun _ _ _ hab hbc => hbc.trans hab⟩
  have hirrefl : Std.Irrefl fun t s : {s // s ∈ sections} =>
      TransGen (RefersTo sections) s.1 t.1 := ⟨fun s => h s.1 s.2⟩
  have hwf := Finite.wellFounded_of_trans_of_irrefl fun t s : {s // s ∈ sections} =>
    TransGen (RefersTo sections) s.1 t.1
  intro s hs
  refine hwf.induction (C := fun s => P s.1) ⟨s, hs⟩ fun s ih => step s.1 s.2 fun t ht => ?_
  exact ih ⟨t, ht.2.1⟩ (.single ht)

theorem matches_self (R : Section → Section → Prop) (s : Section) : Matches sections R s s :=
  ⟨rfl, rfl, fun _ _ => rfl, List.forall₂_same.mpr fun _ _ => ⟨rfl, rfl, Or.inl rfl⟩⟩

/-- Identical sections agree up to identical ones. -/
theorem Identical.unfold {s t : Section} (h : Identical sections s t) :
    s.marks = [] ∧ t.marks = [] ∧ Matches sections (Identical sections) s t := by
  obtain ⟨R, hmatches, hst⟩ := h
  obtain ⟨hs, ht, hmatch⟩ := hmatches s t hst
  refine ⟨hs, ht, hmatch.alignment, hmatch.size, hmatch.content, hmatch.sites.imp fun a b hab => ?_⟩
  refine ⟨hab.1, hab.2.1, hab.2.2.imp_right ?_⟩
  rintro ⟨u, hu, v, hv, hua, hvb, huv⟩
  exact ⟨u, hu, v, hv, hua, hvb, R, hmatches, huv⟩

/-- Sections agree if those do that stand in for them, and their targets do. -/
theorem Matches.of_standsFor {kept : List Section} {R R' : Section → Section → Prop}
    {f : Reference → Reference} {s t k l : Section} (hk : k.StandsFor f s) (hl : l.StandsFor f t)
    (h : Matches kept R k l)
    (targets : ∀ a b : Reference, (f a = f b ∨
        ∃ u ∈ kept, ∃ v ∈ kept, u.reference = f a ∧ v.reference = f b ∧ R u v) →
      a = b ∨ ∃ u ∈ sections, ∃ v ∈ sections, u.reference = a ∧ v.reference = b ∧ R' u v) :
    Matches sections R' s t := by
  have hsites := h.sites
  rw [hk.sites, hl.sites, List.forall₂_map_left_iff, List.forall₂_map_right_iff] at hsites
  exact
    { alignment := by
        rw [← hk.alignment, ← hl.alignment, h.alignment]
      size := by
        rw [← hk.size, ← hl.size, h.size]
      content := by
        intro i hi
        have hti : t.Outside i := by
          intro site hsite
          obtain ⟨j, hj, rfl⟩ := List.getElem_of_mem hsite
          have hj' := hsites.length_eq ▸ hj
          have hoffset : (s.sites.get ⟨j, hj'⟩).offset = (t.sites.get ⟨j, hj⟩).offset :=
            (hsites.get hj' hj).1
          have hout := hi _ (List.get_mem s.sites ⟨j, hj'⟩)
          rwa [hoffset] at hout
        rw [← hk.content i hi, ← hl.content i hti, h.content i ((hk.outside i).mpr hi)]
      sites := hsites.imp fun a b hab => ⟨hab.1, hab.2.1, targets a.target b.target hab.2.2⟩ }

/-- Sections that only refer to what was registered before them do not refer to each other in
circles. -/
theorem acyclic_of_backward
    (h : ∀ s ∈ sections, ∀ site ∈ s.sites, site.target.id < s.reference.id) : Acyclic sections := by
  have hdown : ∀ {s t : Section}, TransGen (RefersTo sections) s t →
      t.reference.id < s.reference.id := by
    intro s t hst
    induction hst with
    | single hst =>
      obtain ⟨hs, -, site, hsite, heq⟩ := hst
      exact heq ▸ h _ hs site hsite
    | tail _ hst ih =>
      obtain ⟨hs, -, site, hsite, heq⟩ := hst
      exact Nat.lt_trans (heq ▸ h _ hs site hsite) ih
  exact fun s _ hs => Nat.lt_irrefl _ (hdown hs)

/-! ### Identical sections are merged -/

/-- Sections whose slots hold the numbers of their targets agree in their content if they agree
outside the slots and in their sites. -/
theorem Numbered.content_eq {k l : Section} (hk : k.Numbered e) (hl : l.Numbered e)
    (sites : k.sites = l.sites) (outside : ∀ i, k.Outside i → k.content[i]? = l.content[i]?) :
    k.content = l.content := by
  refine List.ext_getElem? fun i => ?_
  by_cases hi : k.Outside i
  · exact outside i hi
  · unfold Outside at hi
    push Not at hi
    obtain ⟨site, hsite, hlow, hhigh⟩ := hi
    obtain ⟨j, rfl⟩ := Nat.exists_eq_add_of_le hlow
    have hj : j < (placeholder e site.target).length := by
      rw [length_placeholder]
      omega
    rw [hk site hsite j hj, hl site (sites ▸ hsite) j hj]

/-- Without marks the digest covers content, alignment and sites. -/
theorem digest_eq {k l : Section} (content : k.content = l.content)
    (alignment : k.alignment = l.alignment) (sites : k.sites = l.sites) (hk : k.marks = [])
    (hl : l.marks = []) : k.digest = l.digest := by
  cases k
  cases l
  subst content alignment sites hk hl
  rfl

/-- Identical sections are stood in for by the same one. -/
theorem Identical.resolve_eq (coherent : Coherent sections) (tell : DigestsTell e sections)
    (numbered : ∀ s ∈ sections, s.Numbered e) (acyclic : Acyclic sections) {s t : Section}
    (hs : s ∈ sections) (ht : t ∈ sections) (h : Identical sections s t) :
    (merge e sections).2.resolve s.reference = (merge e sections).2.resolve t.reference := by
  have hcomplete := merge_complete coherent tell
  have hnumbered := merge_numbered coherent numbered
  have hdiffer := digests_differ e sections
  generalize merge e sections = merged at hcomplete hnumbered hdiffer ⊢
  obtain ⟨kept, aliases⟩ := merged
  obtain ⟨R, hmatches, hst⟩ := h
  -- The induction is along the references of the one section; the other one follows.
  refine acyclic.induction (P := fun s => ∀ t ∈ sections, R s t →
    aliases.resolve s.reference = aliases.resolve t.reference) ?_ s hs t ht hst
  intro s hs ih t ht hst
  obtain ⟨hsmarks, htmarks, hmatch⟩ := hmatches s t hst
  obtain ⟨k, hk, hkref, hkstands⟩ := hcomplete s hs
  obtain ⟨l, hl, hlref, hlstands⟩ := hcomplete t ht
  have hsites : k.sites = l.sites := by
    rw [hkstands.sites, hlstands.sites, ← List.forall₂_eq_eq_eq, List.forall₂_map_left_iff,
      List.forall₂_map_right_iff]
    refine List.forall₂_iff_get.mpr ⟨hmatch.sites.length_eq, fun i hi hi' => ?_⟩
    obtain ⟨hoffset, hencoding, htarget⟩ := hmatch.sites.get hi hi'
    have hresolve : aliases.resolve (s.sites.get ⟨i, hi⟩).target
        = aliases.resolve (t.sites.get ⟨i, hi'⟩).target := by
      rcases htarget with heq | ⟨u, hu, v, hv, hua, hvb, huv⟩
      · rw [heq]
      · rw [← hua, ← hvb]
        exact ih u ⟨hs, hu, _, List.get_mem _ _, hua.symm⟩ v hv huv
    rw [hoffset, hencoding, hresolve]
  have hcontent : k.content = l.content := by
    refine (hnumbered k hk).content_eq (hnumbered l hl) hsites fun i hi => ?_
    have hi' : l.Outside i := by
      unfold Outside at hi ⊢
      rwa [← hsites]
    rw [hkstands.content i ((hkstands.outside i).mp hi), hlstands.content i ((hlstands.outside i).mp hi')]
    exact hmatch.content i ((hkstands.outside i).mp hi)
  have halignment : k.alignment = l.alignment := by
    rw [hkstands.alignment, hlstands.alignment, hmatch.alignment]
  have hdigest := digest_eq hcontent halignment hsites
    (List.perm_nil.mp (hsmarks ▸ hkstands.marks)) (List.perm_nil.mp (htmarks ▸ hlstands.marks))
  -- Of what is left no two sections have one digest.
  have hkl : k = l := by
    by_contra hne
    have hsymm : Std.Symm fun s t : Section => s.digest ≠ t.digest := ⟨fun _ _ h => h.symm⟩
    exact hdiffer.forall hk hl hne hdigest
  rw [← hkref, ← hlref, hkl]

/-! ### Merged sections are identical -/

/-- References that are replaced by the same one are equal or name two sections without marks. -/
theorem eq_or_unmarked {kept : List Section} {aliases : Aliases} (coherent : Coherent sections)
    (merging : Merging sections kept aliases) (complete : Complete sections kept aliases)
    {a b : Reference} (h : aliases.resolve a = aliases.resolve b) :
    a = b ∨ ∃ u ∈ sections, ∃ v ∈ sections, u.reference = a ∧ v.reference = b ∧ u.marks = [] ∧
      v.marks = [] := by
  by_cases heq : a = b
  · exact Or.inl heq
  · right
    have hname : ∀ {a b : Reference}, a ≠ b → aliases.resolve a = aliases.resolve b →
        a ∈ sections.map (·.reference) := by
      intro a b hne hab
      by_contra hnot
      rw [merging.others a hnot] at hab
      by_cases hb : b ∈ sections.map (·.reference)
      · obtain ⟨v, hv, rfl⟩ := List.mem_map.mp hb
        obtain ⟨k, hk, href⟩ := merging.resolved v hv
        exact hnot (hab.trans href.symm ▸ merging.order.subset (List.mem_map_of_mem hk))
      · exact hne (hab.trans (merging.others b hb))
    obtain ⟨u, hu, rfl⟩ := List.mem_map.mp (hname heq h)
    obtain ⟨v, hv, rfl⟩ := List.mem_map.mp (hname (Ne.symm heq) h.symm)
    obtain ⟨k, hk, hkref, hkstands⟩ := complete u hu
    obtain ⟨l, hl, hlref, hlstands⟩ := complete v hv
    obtain rfl := eq_of_reference_eq merging.coherent hk hl (hkref.trans (h.trans hlref.symm))
    -- A mark stands in one section only, so that two merged sections have none.
    have hnone : u.marks = [] := by
      refine List.eq_nil_iff_forall_not_mem.mpr fun mark hmark => ?_
      have hmark' := hlstands.marks.subset (hkstands.marks.symm.subset hmark)
      have huv := coherent.eq_of_mem_names hu hv (mark_mem_names hmark) (mark_mem_names hmark')
      exact heq (congrArg _ huv)
    refine ⟨u, hu, v, hv, rfl, rfl, hnone, ?_⟩
    have hperm := hkstands.marks.symm.trans hlstands.marks
    rw [hnone] at hperm
    exact List.nil_perm.mp hperm

/-- What a section without marks stands in for is a section without marks. -/
theorem exists_unmarked {kept : List Section} {aliases : Aliases}
    (merging : Merging sections kept aliases) (complete : Complete sections kept aliases)
    {r : Reference} {k : Section} (hk : k ∈ kept) (href : k.reference = aliases.resolve r)
    (unmarked : k.marks = []) : ∃ s ∈ sections, s.reference = r ∧ s.marks = [] := by
  have hr : r ∈ sections.map (·.reference) := by
    by_contra hnot
    rw [merging.others r hnot] at href
    exact hnot (href ▸ merging.order.subset (List.mem_map_of_mem hk))
  obtain ⟨s, hs, rfl⟩ := List.mem_map.mp hr
  obtain ⟨k', hk', href', hstands⟩ := complete s hs
  obtain rfl := eq_of_reference_eq merging.coherent hk' hk (href'.trans href.symm)
  exact ⟨s, hs, rfl, List.nil_perm.mp (unmarked ▸ hstands.marks)⟩

/-- Sections are identical if what stands in for them is the same or identical. -/
theorem Identical.of_kept {kept : List Section} {aliases : Aliases} (coherent : Coherent sections)
    (merging : Merging sections kept aliases) (complete : Complete sections kept aliases)
    {s t k l : Section} (hs : s ∈ sections) (ht : t ∈ sections) (hsmarks : s.marks = [])
    (htmarks : t.marks = []) (hk : k ∈ kept) (hl : l ∈ kept)
    (hkref : k.reference = aliases.resolve s.reference)
    (hlref : l.reference = aliases.resolve t.reference) (h : k = l ∨ Identical kept k l) :
    Identical sections s t := by
  -- Sections are related when those that are kept for them are one section or identical.
  refine ⟨fun s t => s ∈ sections ∧ t ∈ sections ∧ s.marks = [] ∧ t.marks = [] ∧
    ∃ k ∈ kept, ∃ l ∈ kept, k.reference = aliases.resolve s.reference ∧
      l.reference = aliases.resolve t.reference ∧ (k = l ∨ Identical kept k l), ?_,
    hs, ht, hsmarks, htmarks, k, hk, l, hl, hkref, hlref, h⟩
  rintro s t ⟨hs, ht, hsmarks, htmarks, k, hk, l, hl, hkref, hlref, h⟩
  refine ⟨hsmarks, htmarks, ?_⟩
  obtain ⟨k', hk', hkref', hkstands⟩ := complete s hs
  obtain ⟨l', hl', hlref', hlstands⟩ := complete t ht
  obtain rfl := eq_of_reference_eq merging.coherent hk' hk (hkref'.trans hkref.symm)
  obtain rfl := eq_of_reference_eq merging.coherent hl' hl (hlref'.trans hlref.symm)
  have hmatch : Matches kept (Identical kept) k' l' := by
    rcases h with rfl | hidentical
    · exact matches_self _ _
    · exact hidentical.unfold.2.2
  refine hmatch.of_standsFor hkstands hlstands fun a b hab => ?_
  rcases hab with heq | ⟨u, hu, v, hv, hua, hvb, huv⟩
  · -- Targets that were merged into one.
    refine (eq_or_unmarked coherent merging complete heq).imp_right ?_
    rintro ⟨u, hu, v, hv, hua, hvb, hunone, hvnone⟩
    obtain ⟨m, hm, hmref⟩ := merging.resolved u hu
    exact ⟨u, hu, v, hv, hua, hvb, hu, hv, hunone, hvnone, m, hm, m, hm, hmref,
      by rw [hmref, hua, hvb, heq], Or.inl rfl⟩
  · -- Targets that are identical after merging were so before.
    obtain ⟨u', hu', hua', hunone⟩ := exists_unmarked merging complete hu hua huv.unfold.1
    obtain ⟨v', hv', hvb', hvnone⟩ := exists_unmarked merging complete hv hvb huv.unfold.2.1
    exact Or.inr ⟨u', hu', v', hv', hua', hvb', hu', hv', hunone, hvnone, u, hu, v, hv,
      hua.trans (congrArg _ hua'.symm), hvb.trans (congrArg _ hvb'.symm), Or.inr huv⟩

/-- Sections without marks are stood in for by the same one exactly if they are identical. -/
theorem resolve_eq_iff (coherent : Coherent sections) (tell : DigestsTell e sections)
    (numbered : ∀ s ∈ sections, s.Numbered e) (acyclic : Acyclic sections) {s t : Section}
    (hs : s ∈ sections) (ht : t ∈ sections) (hsmarks : s.marks = []) (htmarks : t.marks = []) :
    (merge e sections).2.resolve s.reference = (merge e sections).2.resolve t.reference ↔
      Identical sections s t := by
  refine ⟨fun heq => ?_, Identical.resolve_eq coherent tell numbered acyclic hs ht⟩
  have hmerging := merge_merging coherent e
  obtain ⟨k, hk, href⟩ := hmerging.resolved s hs
  exact .of_kept coherent hmerging (merge_complete coherent tell) hs ht hsmarks htmarks hk hk href
    (href.trans heq) (Or.inl rfl)

/-- No two different sections are identical after merging. -/
theorem Identical.eq_of_kept (coherent : Coherent sections) (tell : DigestsTell e sections)
    (numbered : ∀ s ∈ sections, s.Numbered e) (acyclic : Acyclic sections) {k l : Section}
    (hk : k ∈ (merge e sections).1) (hl : l ∈ (merge e sections).1)
    (h : Identical (merge e sections).1 k l) : k = l := by
  have hmerging := merge_merging coherent e
  have hcomplete := merge_complete coherent tell
  obtain ⟨hkself, -⟩ := hmerging.survivors k hk
  obtain ⟨hlself, -⟩ := hmerging.survivors l hl
  obtain ⟨s, hs, hsref, hsmarks⟩ := exists_unmarked hmerging hcomplete hk hkself.symm h.unfold.1
  obtain ⟨t, ht, htref, htmarks⟩ := exists_unmarked hmerging hcomplete hl hlself.symm h.unfold.2.1
  have hst : Identical sections s t :=
    .of_kept coherent hmerging hcomplete hs ht hsmarks htmarks hk hl (hsref ▸ hkself.symm)
      (htref ▸ hlself.symm) (Or.inr h)
  have hresolve := hst.resolve_eq coherent tell numbered acyclic hs ht
  rw [hsref, htref, hkself, hlself] at hresolve
  exact eq_of_reference_eq hmerging.coherent hk hl hresolve

end ObjectPack.Section

namespace ObjectPack.Draft

open Section

/-! ### Data units -/

/-- How far the blocks of a data unit are shared. -/
structure SharesAll (d : Draft) (unit : Nat) : Prop where
  /-- After merging no two blocks are identical. -/
  distinct : ∀ k ∈ (Section.merge d.endian (d.sections unit)).1,
    ∀ l ∈ (Section.merge d.endian (d.sections unit)).1,
      Identical (Section.merge d.endian (d.sections unit)).1 k l → k = l
  /-- Blocks without marks are merged into one exactly if they are identical. -/
  merged_iff : ∀ s ∈ d.sections unit, ∀ t ∈ d.sections unit, s.marks = [] → t.marks = [] →
    ((d.aliases unit).resolve s.reference = (d.aliases unit).resolve t.reference ↔
      Identical (d.sections unit) s t)
  /-- Of each class of identical blocks the one survives that was registered first. -/
  first : ∀ s ∈ d.sections unit, s.marks = [] → ∃ k ∈ d.survivors unit,
    k.reference = (d.aliases unit).resolve s.reference ∧ Identical (d.sections unit) s k ∧
      ∀ t ∈ d.sections unit, Identical (d.sections unit) s t →
        ((d.sections unit).map (·.reference)).idxOf k.reference
          ≤ ((d.sections unit).map (·.reference)).idxOf t.reference
  /-- What remains are the survivors in the order of their registration. -/
  order : (Section.merge d.endian (d.sections unit)).1.map (·.reference)
    = (d.survivors unit).map (·.reference)
  /-- Merging ends after at most as many passes as there are blocks, when no more can be merged. -/
  passes : ∃ n ≤ (d.sections unit).length,
    (afterPass d.endian)^[n] (d.sections unit) = (Section.merge d.endian (d.sections unit)).1 ∧
      (∀ i < n, merges ((afterPass d.endian)^[i] (d.sections unit)) ≠ []) ∧
      merges (Section.merge d.endian (d.sections unit)).1 = []

/-- The sections of a draft hold the numbers of what they refer to. -/
theorem Numbered.sections {d : Draft} (h : d.Numbered) (valid : d.Valid) (unit : Nat) :
    ∀ s ∈ d.sections unit, s.Numbered d.endian := by
  intro s hs site hsite i hi
  obtain ⟨block, hblock, body, hbody, -, rfl⟩ := mem_sections.mp hs
  have hinside := (valid.bodies block hblock body hbody).slotsInside site hsite
  rw [length_placeholder] at hi
  rw [getElem?_sectionOf d block body (by omega), ← Nat.add_assoc]
  exact h block hblock body hbody site hsite i (by rwa [length_placeholder])

theorem Valid.survivors_order {d : Draft} (valid : d.Valid) (unit : Nat) :
    (Section.merge d.endian (d.sections unit)).1.map (·.reference)
      = (d.survivors unit).map (·.reference) :=
  ((valid.merging unit).references_eq (valid.coherent unit)).trans List.filter_map

/-- Merging shares all that can be shared. -/
theorem link_sharesAll {d : Draft} {unit : Nat} (reachable : d.Reachable)
    (tell : DigestsTell d.endian (d.sections unit)) (acyclic : Acyclic (d.sections unit)) :
    d.SharesAll unit := by
  have hvalid := reachable.valid
  have hcoherent := hvalid.coherent unit
  have hmerging := hvalid.merging unit
  have hcomplete := merge_complete hcoherent tell
  have hnumbered := reachable.numbered.sections hvalid unit
  have hmerged : ∀ s ∈ d.sections unit, ∀ t ∈ d.sections unit, s.marks = [] → t.marks = [] →
      ((d.aliases unit).resolve s.reference = (d.aliases unit).resolve t.reference ↔
        Identical (d.sections unit) s t) := fun s hs t ht hsmarks htmarks =>
    resolve_eq_iff hcoherent tell hnumbered acyclic hs ht hsmarks htmarks
  refine
    { distinct := fun k hk l hl => Identical.eq_of_kept hcoherent tell hnumbered acyclic hk hl
      merged_iff := hmerged
      first := ?_
      order := hvalid.survivors_order unit
      passes := ?_ }
  · intro s hs hsmarks
    obtain ⟨k, hk, hkref, hkstands⟩ := hcomplete s hs
    have hself := (hmerging.survivors k hk).1
    obtain ⟨first, hfirst, hfref, hfmarks⟩ := exists_unmarked hmerging hcomplete hk hself.symm
      (List.perm_nil.mp (hsmarks ▸ hkstands.marks))
    have hresolve : (d.aliases unit).resolve first.reference = first.reference := hfref ▸ hself
    have heq : first.reference = (d.aliases unit).resolve s.reference := hfref.trans hkref
    refine ⟨first, mem_survivors.mpr ⟨hfirst, hresolve⟩, heq, ?_, fun t ht hst => ?_⟩
    · exact (hmerged s hs first hfirst hsmarks hfmarks).mp (heq.symm.trans hresolve.symm)
    · rw [heq, (hmerged s hs t ht hsmarks hst.unfold.2.1).mpr hst]
      exact merge_earlier hcoherent d.endian ht
  · obtain ⟨n, hresult, hcount, hmerges, hend⟩ := merge_passes d.endian (d.sections unit)
    exact ⟨n, by omega, hresult, hmerges, hend⟩

/-- Two equal blocks and two others that refer to one of them each; the equal ones may have a mark
each. -/
def layerOperations (marked : Bool) : List Operation :=
  [.registerUnit .empty, .openUnit 0, .newBlock 4 none, .newBlock 4 none, .newBlock 8 none,
    .newBlock 8 none, .takeReference, .takeReference,
    .openBlock ⟨1⟩, .write (.scalar (.u32 7))] ++ (if marked then [.mark ⟨5⟩] else [])
    ++ [.closeBlock, .openBlock ⟨2⟩, .write (.scalar (.u32 7))]
    ++ (if marked then [.mark ⟨6⟩] else [])
    ++ [.closeBlock, .openBlock ⟨3⟩, .writeReference ⟨1⟩, .closeBlock,
      .openBlock ⟨4⟩, .writeReference ⟨2⟩, .closeBlock, .closeUnit]

/-- The draft of these operations. -/
def layers (marked : Bool) : Option Draft :=
  (blank .win64 .chained .full).after? (layerOperations marked)

/-- Without marks the blocks that refer to the equal ones are merged too. -/
theorem link_sharesAll_layers : ∃ d packed, layers false = some d ∧ d.link = .ok packed ∧
    DigestsTell d.endian (d.sections 0) ∧ Acyclic (d.sections 0) ∧
    (d.survivors 0).map (·.reference) = [⟨1⟩, ⟨3⟩] ∧ d.SharesAll 0 := by
  have hcheck : (layers false).any (fun d => d.link.toOption.isSome &&
      digestsTell d.endian 3 (d.sections 0) &&
      (d.sections 0).all (fun s => s.sites.all fun site => site.target.id < s.reference.id) &&
      (d.survivors 0).map (·.reference) = [⟨1⟩, ⟨3⟩]) = true := by decide +kernel
  simp only [Option.any_eq_true, Bool.and_eq_true, decide_eq_true_eq, List.all_eq_true,
    Option.isSome_iff_exists, Outcome.toOption_eq_some] at hcheck
  obtain ⟨d, hd, ⟨⟨⟨packed, hpacked⟩, htell⟩, hbackward⟩, hsurvivors⟩ := hcheck
  have hdigests := digestsTell_of_check htell
  have hacyclic := acyclic_of_backward hbackward
  exact ⟨d, packed, hd, hpacked, hdigests, hacyclic, hsurvivors,
    link_sharesAll (reachable_of_after? hd) hdigests hacyclic⟩

/-- A block with the number 7 and a mark behind it. -/
def markedLeaf (reference mark : Nat) : Section :=
  ⟨⟨reference⟩, 4, [7, 0, 0, 0], [], [⟨⟨mark⟩, 4⟩]⟩

/-- A block that holds nothing but a reference. -/
def referrer (reference : Nat) (target : UInt8) : Section :=
  ⟨⟨reference⟩, 8, [target, 0, 0, 0, 0, 0, 0, 0], [⟨0, ⟨target.toNat⟩, .chained⟩], []⟩

/-- Blocks without marks that refer to equal blocks with a mark each agree as far as their sites lead,
and both are kept. -/
theorem link_keeps_alike : ¬ ∀ (d : Draft) (packed : PackedContainer) (unit : Nat), d.Reachable →
    d.link = .ok packed → unit < d.units.length → DigestsTell d.endian (d.sections unit) →
    Acyclic (d.sections unit) →
    ∀ k ∈ (Section.merge d.endian (d.sections unit)).1,
      ∀ l ∈ (Section.merge d.endian (d.sections unit)).1, k.marks = [] → l.marks = [] →
        Alike (Section.merge d.endian (d.sections unit)).1 k l → k = l := by
  intro hall
  have hcheck : (layers true).any (fun d => d.link.toOption.isSome && 0 < d.units.length &&
      digestsTell d.endian 2 (d.sections 0) &&
      (d.sections 0).all (fun s => s.sites.all fun site => site.target.id < s.reference.id) &&
      (Section.merge d.endian (d.sections 0)).1
        = [markedLeaf 1 5, markedLeaf 2 6, referrer 3 1, referrer 4 2]) = true := by
    decide +kernel
  simp only [Option.any_eq_true, Bool.and_eq_true, decide_eq_true_eq, List.all_eq_true,
    Option.isSome_iff_exists, Outcome.toOption_eq_some] at hcheck
  obtain ⟨d, hd, ⟨⟨⟨⟨packed, hpacked⟩, hunit⟩, htell⟩, hbackward⟩, hkept⟩ := hcheck
  have heq := hall d packed 0 (reachable_of_after? hd) hpacked hunit (digestsTell_of_check htell)
    (acyclic_of_backward hbackward)
  rw [hkept] at heq
  refine absurd (heq (referrer 3 1) (by decide) (referrer 4 2) (by decide) rfl rfl ?_) (by decide)
  refine ⟨fun u v => u = markedLeaf 1 5 ∧ v = markedLeaf 2 6 ∨ u = referrer 3 1 ∧ v = referrer 4 2,
    ?_, Or.inr ⟨rfl, rfl⟩⟩
  rintro u v (⟨rfl, rfl⟩ | ⟨rfl, rfl⟩)
  · exact ⟨rfl, rfl, fun _ _ => rfl, List.Forall₂.nil⟩
  · refine ⟨rfl, rfl, fun i hi => ?_, ?_⟩
    · -- The slot is all that there is.
      have hbehind := (hi ⟨0, ⟨1⟩, .chained⟩ List.mem_cons_self).resolve_left (Nat.not_lt_zero i)
      rw [List.getElem?_eq_none hbehind, List.getElem?_eq_none hbehind]
    · refine List.Forall₂.cons ⟨rfl, rfl, Or.inr ?_⟩ List.Forall₂.nil
      exact ⟨markedLeaf 1 5, by decide, markedLeaf 2 6, by decide, rfl, rfl, Or.inl ⟨rfl, rfl⟩⟩

end ObjectPack.Draft
