import ObjectPack.Proofs.Section.Rename

/-!
# Sites in another encoding

Sections of which all sites are in one encoding can be written in another one (`Section.recode`).  The
encoding is part of the digest, so the digests change; but sections that have the same digest in the one
encoding have the same digest in the other (`Section.Recoded.digest_iff`).  So both are merged alike, pass by
pass (`Section.Recoded.merge`).
-/

namespace ObjectPack

/-- A site in another encoding. -/
def Site.recode (m : PointerEncoding) (s : Site) : Site := { s with encoding := m }

theorem Aliases.rename_id (a : Aliases) : a.rename id = a := by
  unfold rename
  exact List.map_id _

namespace Section

variable {e : Endian} {m m' : PointerEncoding} {s t : Section} {l : List Section}

/-- A section with all its sites in another encoding. -/
def recode (m : PointerEncoding) (s : Section) : Section := { s with sites := s.sites.map (·.recode m) }

/-- Whether all sites of a section are in one encoding. -/
def EncodedIn (m : PointerEncoding) (s : Section) : Prop := ∀ site ∈ s.sites, site.encoding = m

/-- Written back in its own encoding a section is what it was. -/
theorem EncodedIn.recode_recode (h : s.EncodedIn m) : (s.recode m').recode m = s := by
  have hsites : (s.sites.map (·.recode m')).map (·.recode m) = s.sites := by
    rw [List.map_map]
    refine (List.map_congr_left fun site hsite => ?_).trans (List.map_id _)
    obtain ⟨offset, target, encoding⟩ := site
    obtain rfl := h _ hsite
    rfl
  show { s with sites := (s.sites.map (·.recode m')).map (·.recode m) } = s
  rw [hsites]

theorem Same.recode (h : s.Same t) (m : PointerEncoding) : (s.recode m).Same (t.recode m) where
  content := h.content
  alignment := h.alignment
  sites := congrArg (List.map (Site.recode m)) h.sites
  marks := h.marks

/-- Replacing references does not ask for the encoding. -/
theorem retarget_recode (s : Section) (m : PointerEncoding) (e : Endian) (merged : Aliases) :
    (s.recode m).retarget e merged = (s.retarget e merged).recode m := by
  unfold retarget recode
  simp only [List.map_map, List.filter_map, List.foldl_map]
  rfl

theorem EncodedIn.retarget (h : s.EncodedIn m) (e : Endian) (merged : Aliases) :
    (s.retarget e merged).EncodedIn m :=
  List.forall_mem_map.mpr h

/-- What holds of the sections of a data unit that are written in another encoding. -/
structure Recoded (e : Endian) (m m' : PointerEncoding) (l : List Section) : Prop where
  coherent : Coherent l
  encoded : ∀ s ∈ l, s.EncodedIn m
  tell : DigestsTell e l
  tell' : DigestsTell e (l.map (·.recode m'))

/-- In both encodings the same sections have one digest. -/
theorem Recoded.digest_iff (h : Recoded e m m' l) (hs : s ∈ l) (ht : t ∈ l) :
    s.digest = t.digest ↔ (s.recode m').digest = (t.recode m').digest := by
  by_cases heq : s = t
  · subst heq
    exact iff_of_true rfl rfl
  · have hsame : s.digest = t.digest ∨ (s.recode m').digest = (t.recode m').digest → s.Same t := by
      rintro (hdigest | hdigest)
      · exact h.tell l (.start l) s hs t ht hdigest
      · have hrecoded := (h.tell' _ (.start _) _ (List.mem_map_of_mem hs) _ (List.mem_map_of_mem ht)
          hdigest).recode m
        rwa [(h.encoded s hs).recode_recode, (h.encoded t ht).recode_recode] at hrecoded
    -- Sections that are the same under two names have no marks.
    have hunmarked := fun same => unmarked_of_same h.coherent hs ht heq same
    constructor
    · intro hdigest
      have same := hsame (Or.inl hdigest)
      exact digest_eq same.content same.alignment (same.recode m').sites (hunmarked same)
        (same.unmarked (hunmarked same))
    · intro hdigest
      have same := hsame (Or.inr hdigest)
      exact digest_eq same.content same.alignment same.sites (hunmarked same)
        (same.unmarked (hunmarked same))

/-- A pass splits recoded sections as it splits the sections. -/
theorem Recoded.split (h : Recoded e m m' l) :
    (split [] (l.map (·.recode m'))).1 = (split [] l).1.map (·.recode m') ∧
      merges (l.map (·.recode m')) = merges l := by
  have hpairs : List.Forall₂ (fun s s' => s ∈ l ∧ s' = s.recode m') l (l.map (·.recode m')) := by
    rw [List.forall₂_map_right_iff, List.forall₂_same]
    exact fun s hs => ⟨hs, rfl⟩
  obtain ⟨hkept, hmerged⟩ := split_renamed (f := id) (P := fun s s' => s ∈ l ∧ s' = s.recode m')
    (by rintro s _ ⟨-, rfl⟩; rfl)
    (by rintro s _ t _ ⟨hs, rfl⟩ ⟨ht, rfl⟩; exact h.digest_iff hs ht) (.nil : List.Forall₂ _ [] []) hpairs
  refine ⟨?_, hmerged.trans (Aliases.rename_id _)⟩
  have heq : List.Forall₂ (· = ·) ((Section.split [] l).1.map (·.recode m'))
      (Section.split [] (l.map (·.recode m'))).1 :=
    List.forall₂_map_left_iff.mpr (hkept.imp fun _ _ hs => hs.2.symm)
  rw [List.forall₂_eq_eq_eq] at heq
  exact heq.symm

/-- A pass that merges something leaves recoded sections behind. -/
theorem Recoded.afterPass (h : Recoded e m m' l) :
    Section.afterPass e (l.map (·.recode m')) = (Section.afterPass e l).map (·.recode m') := by
  obtain ⟨hkept, hmerges⟩ := h.split
  unfold Section.afterPass
  rw [hkept, hmerges, List.map_map, List.map_map]
  exact List.map_congr_left fun s _ => retarget_recode s m' e _

theorem Recoded.pass (h : Recoded e m m' l) (merged : merges l ≠ []) :
    Recoded e m m' (Section.afterPass e l) where
  coherent := h.coherent.afterPass e
  encoded := List.forall_mem_map.mpr fun s hs =>
    (h.encoded s ((split_sublist [] l).subset hs)).retarget e _
  tell current hcurrent := h.tell current (.pass merged hcurrent)
  tell' current hcurrent := by
    rw [← h.afterPass] at hcurrent
    exact h.tell' current (.pass (h.split.2 ▸ merged) hcurrent)

theorem Recoded.mergePasses (h : Recoded e m m' l) (passes : Nat) (aliases : Aliases) :
    mergePasses e passes (l.map (·.recode m')) aliases
      = ((Section.mergePasses e passes l aliases).1.map (·.recode m'),
          (Section.mergePasses e passes l aliases).2) := by
  induction passes generalizing l aliases with
  | zero => rfl
  | succ passes ih =>
    rw [mergePasses_succ, mergePasses_succ, h.split.2]
    by_cases hnone : merges l = []
    · rw [if_pos hnone, if_pos hnone]
    · rw [if_neg hnone, if_neg hnone, h.afterPass]
      exact ih (h.pass hnone) _

/-- Recoded sections are merged as the sections are. -/
theorem Recoded.merge (h : Recoded e m m' l) : merge e (l.map (·.recode m'))
    = ((Section.merge e l).1.map (·.recode m'), (Section.merge e l).2) := by
  unfold Section.merge
  rw [List.length_map]
  exact h.mergePasses _ []

end Section

end ObjectPack
