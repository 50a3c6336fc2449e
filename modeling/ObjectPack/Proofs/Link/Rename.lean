import ObjectPack.Proofs.Follow
import ObjectPack.Proofs.Link.Unit
import ObjectPack.Proofs.Section.Rename

/-!
# Linking renamed sections

A linked data unit does not show how its references were called.  Renamed sections are placed like the
sections (`Placement.place_renamed`) and their sites find the same places, so that the pointers are the
same.  The contents that are filled in differ in the slots of sites only (`Placement.fill_renamed`), and
every such slot is patched; so the images are equal (`LinkedUnit.ofSections_renamed`).
-/

namespace ObjectPack

open Outcome

variable {f : Reference → Reference} {e : Endian}

namespace Placement

/-- Whether a renamed section stands where the section does. -/
structure Renamed (f : Reference → Reference) (p p' : Placement) : Prop where
  start : p'.start = p.start
  placed : Section.Renamed f p.placed p'.placed

variable {placements placements' : List Placement} {aliases : Aliases} {position last unit : Nat}

theorem place_renamed {l l' : List Section} (pairs : List.Forall₂ (Section.Renamed f) l l') :
    Follows (fun r r' => List.Forall₂ (Renamed f) r.1 r'.1 ∧ r'.2 = r.2) (place unit position l)
      (place unit position l') := by
  induction pairs generalizing position with
  | nil =>
    unfold place
    split
    · exact .ok ⟨.nil, rfl⟩
    · exact .error _ _
  | @cons s s' _ _ hs _ ih =>
    unfold place
    refine .refuse Iff.rfl fun _ => ?_
    rw [hs.alignment, hs.content.length]
    refine .bind_same fun start _ => ih.bind fun r r' h => .ok ⟨?_, h.2⟩
    exact h.1.cons ⟨rfl, hs⟩

/-- Renamed sections give the renamed references the same places. -/
theorem targets_renamed (pairs : List.Forall₂ (Renamed f) placements placements') :
    placements'.flatMap targets = (placements.flatMap targets).map fun t => (f t.1, t.2) := by
  induction pairs with
  | nil => rfl
  | @cons p p' _ _ hp _ ih =>
    rw [List.flatMap_cons, List.flatMap_cons, List.map_append, ih]
    congr 1
    unfold targets
    rw [hp.start, hp.placed.reference, hp.placed.marks, List.map_cons, List.map_map, List.map_map]
    rfl

/-- The renaming of what a reference stands for is found where that is found. -/
theorem findTarget_renamed (inj : Function.Injective f) (targets : List (Reference × Nat))
    (aliases : Aliases) (r : Reference) :
    Follows Eq (findTarget targets (aliases.resolve r))
      (findTarget (targets.map fun t => (f t.1, t.2)) ((aliases.rename f).resolve (f r))) := by
  intro place h
  rw [findTarget_eq_ok] at h
  refine ⟨place, findTarget_eq_ok.mpr ?_, rfl⟩
  rw [Aliases.resolve_rename inj, lookup_map_of_injective inj (fun place : Nat => place), h]
  rfl

/-- The pointers of a renamed section are those of the section. -/
theorem pointers_renamed (inj : Function.Injective f) (targets : List (Reference × Nat))
    (aliases : Aliases) {p p' : Placement} (h : Renamed f p p') :
    Follows Eq (p.pointers targets aliases)
      (p'.pointers (targets.map fun t => (f t.1, t.2)) (aliases.rename f)) := by
  unfold pointers
  rw [h.placed.sites, h.start]
  refine .mapM (P := fun site site' => site' = site.rename f) ?_ ?_
  · exact List.forall₂_map_right_iff.mpr (List.forall₂_same.mpr fun _ _ => rfl)
  · rintro site _ rfl
    refine (findTarget_renamed inj targets aliases site.target).bind ?_
    rintro place _ rfl
    exact .ok rfl

/-- Contents that agree outside the slots of sites are filled in so that all agrees outside the
slots. -/
theorem fill_renamed {P : Nat → Prop} {b b' : Bytes}
    (pairs : List.Forall₂ (Renamed f) placements placements') (laid : Laid b.length placements last)
    (agree : Bytes.AgreeWhere P b b')
    (outside : ∀ p ∈ placements, ∀ site ∈ p.placed.sites, ∀ i, P i →
      i < p.start + site.offset ∨ p.start + site.offset + Pointer.slotSize ≤ i) :
    Bytes.AgreeWhere P (fill placements b) (fill placements' b') := by
  induction pairs generalizing b b' with
  | nil => exact agree
  | @cons p p' _ _ hp _ ih =>
    have hpad : (b.padTo p.start).length = p.start := by
      rw [Bytes.length_padTo]
      exact Nat.max_eq_right laid.1
    have hnext : (b.padTo p.start ++ p.placed.content).length = p.stop := by
      rw [List.length_append, hpad, stop]
    unfold fill
    rw [List.foldl_cons, List.foldl_cons, hp.start]
    refine ih (hnext ▸ laid.2.2.2) ((agree.padTo p.start).append ?_) fun q hq =>
      outside q (List.mem_cons_of_mem _ hq)
    rw [hpad]
    refine hp.placed.content.mono fun i hi site hsite => ?_
    have houtside := outside p List.mem_cons_self site hsite (p.start + i) hi
    omega

/-- The pointers of renamed sections are those of the sections. -/
theorem allPointers_renamed (inj : Function.Injective f) {l l' : List Placement}
    (pairs : List.Forall₂ (Renamed f) l l') (aliases : Aliases) :
    Follows Eq
      (l.mapM fun p => (liftM (p.pointers (l.flatMap targets) aliases) : Except (Failure LinkError) _))
      (l'.mapM fun p =>
        (liftM (p.pointers (l'.flatMap targets) (aliases.rename f)) : Except (Failure LinkError) _)) := by
  rw [targets_renamed pairs]
  exact .mapM pairs fun _ _ hp => (pointers_renamed inj (l.flatMap targets) aliases hp).lift

end Placement

open Placement

/-! ### Images -/

/-- Every site of a placed section has a slot that is written. -/
theorem Linkage.outside_sites {root : Option Reference} {kept : List Section} {aliases : Aliases}
    {image : LinkedUnit} {placements : List Placement} {last : Nat} {slots : List (Nat × Bytes)}
    (h : Linkage e root kept aliases image placements last slots) (coherent : Section.Coherent kept)
    {p : Placement} (hp : p ∈ placements) {site : Site} (hsite : site ∈ p.placed.sites) {i : Nat}
    (hi : OutsideSlots ((pointersOf placements aliases).filterMap (plainSlot? e) ++ slots) i) :
    i < p.start + site.offset ∨ p.start + site.offset + Pointer.slotSize ≤ i := by
  have hmem : p.pointerOf placements aliases site ∈ pointersOf placements aliases :=
    mem_pointersOf.mpr ⟨p, hp, site, hsite, rfl⟩
  obtain ⟨slot, hslot, -⟩ := (h.ascending coherent).exists_slot h.chain hmem
  have hposition : (p.pointerOf placements aliases site).1.position.toNat = p.start + site.offset :=
    h.position_pointerOf coherent hp hsite
  have houtside := hi (_, slot) (hposition ▸ hslot)
  rwa [slots_length h.chain (_, slot) (hposition ▸ hslot)] at houtside

/-- Images of renamed sections differ in the slots only, and these are all written. -/
theorem Linkage.patched_renamed {root : Option Reference} {kept : List Section} {aliases : Aliases}
    {image : LinkedUnit} {placements placements' : List Placement} {last : Nat}
    {slots : List (Nat × Bytes)} (h : Linkage e root kept aliases image placements last slots)
    (coherent : Section.Coherent kept) (pairs : List.Forall₂ (Renamed f) placements placements')
    (header : Container.UnitHeader) :
    patchAll (fill placements' (header.toBytes e))
        ((pointersOf placements aliases).filterMap (plainSlot? e) ++ slots)
      = patchAll (fill placements (header.toBytes e))
        ((pointersOf placements aliases).filterMap (plainSlot? e) ++ slots) := by
  have hheader := Container.UnitHeader.length_toBytes e header
  have hlength : (fill placements (header.toBytes e)).length
      = (fill placements ((headerOf placements aliases root).toBytes e)).length := by
    rw [length_fill h.laid hheader, h.length_filled]
  refine Bytes.AgreeWhere.patchAll_eq ?_ fun slot hslot => ?_
  · refine fill_renamed pairs (hheader.symm ▸ h.laid) (.refl _ _) ?_
    exact fun p hp site hsite i hi => h.outside_sites coherent hp hsite hi
  · rw [hlength]
    exact h.slots_inside coherent slot hslot

theorem foldl_alignment_renamed {l l' : List Section} (pairs : List.Forall₂ (Section.Renamed f) l l')
    (a : Nat) : l'.foldl (fun a s => max a s.alignment) a = l.foldl (fun a s => max a s.alignment) a := by
  induction pairs generalizing a with
  | nil => rfl
  | cons hs _ ih => rw [List.foldl_cons, List.foldl_cons, hs.alignment, ih]

/-- Renamed sections are linked to the same image. -/
theorem LinkedUnit.ofSections_renamed (inj : Function.Injective f) {l l' : List Section}
    (parallel : Section.Parallel e f l l') {unit : Nat} {root : Option Reference} {image : LinkedUnit}
    (h : ofSections e unit root l = .ok image) :
    ofSections e unit (root.map f) l' = .ok image := by
  have hcoherent := (Section.merge_merging parallel.coherent e).coherent
  obtain ⟨placements, last, slots, hplace, hlinkage⟩ := ofSections_linkage hcoherent.wellFormed h
  obtain ⟨hkept, haliases⟩ := parallel.merge inj
  have hlengths := parallel.pairs.length_eq
  unfold ofSections at h ⊢
  generalize Section.merge e l = merged at *
  generalize Section.merge e l' = merged' at *
  obtain ⟨kept, aliases⟩ := merged
  obtain ⟨kept', aliases'⟩ := merged'
  obtain rfl : aliases' = aliases.rename f := haliases
  -- Placing and collecting pointers do the same to renamed sections; only references have other names.
  obtain ⟨⟨placements', last'⟩, hplace', hpairs, rfl⟩ := place_renamed hkept _ hplace
  simp only [bind_eq_ok, mapError_eq_ok, Prod.exists] at h ⊢
  obtain ⟨_, _, hplaced, found, hfound, slots', hslots, h⟩ := h
  cases hplace.symm.trans hplaced
  obtain ⟨_, hfound', rfl⟩ := allPointers_renamed inj hpairs aliases found hfound
  refine ⟨placements', _, hplace', found, hfound', slots', hslots, ?_⟩
  have hpointers : found.flatten = pointersOf placements aliases := flatten_pointers hfound
  have hchain := hlinkage.chain
  rw [← hpointers, hslots] at hchain
  obtain rfl := Except.ok.inj hchain
  have hbytes := fun header => hpointers ▸ hlinkage.patched_renamed hcoherent hpairs header
  have halignment := foldl_alignment_renamed hkept Container.unitAlignment
  have hcount : kept'.length = kept.length := hkept.length_eq.symm
  -- The root is the last thing that is looked up by reference.
  cases root with
  | none =>
    simp only [Option.map_none, hbytes, halignment, hcount, ← hlengths]
    exact h
  | some reference =>
    simp only [bind_eq_ok, lift_eq_ok] at h
    obtain ⟨place, hplace, h⟩ := h
    obtain ⟨_, hplace', rfl⟩ := findTarget_renamed inj (placements.flatMap targets) aliases reference
      place hplace
    simp only [Option.map_some, hbytes, halignment, hcount, ← hlengths, targets_renamed hpairs,
      bind_eq_ok, lift_eq_ok]
    exact ⟨place, hplace', h⟩

end ObjectPack
