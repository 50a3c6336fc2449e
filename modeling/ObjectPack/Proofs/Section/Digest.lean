import ObjectPack.Proofs.Section.Merge

/-!
# What digests tell

The input of a section's digest strings together content, alignment, sites and marks without saying
how long the parts are.  It therefore tells two sections apart only where their contents are equally
long and they have equally many sites (`same_of_digestInput`).  Merging compares nothing but digests:
even if the digest itself never collides, two merged sections agree exactly under that condition
(`Draft.merged_same_iff`), and there are drafts that lose a block to one of another content
(`Draft.exists_merged_different`).
-/

namespace ObjectPack

namespace Section

/-! ### Parts of the input -/

@[simp] theorem length_word (n : Nat) : (word n).length = 4 := Endian.length_encode ..

@[simp] theorem length_siteBytes (s : Site) : (siteBytes s).length = 9 := by
  simp [siteBytes]

@[simp] theorem length_markBytes (m : Mark) : (markBytes m).length = 8 := by
  simp [markBytes]

theorem word_inj {a b : Nat} (ha : a < wordLimit) (hb : b < wordLimit) (h : word a = word b) :
    a = b := by
  have hdecode := congrArg Endian.little.decode h
  unfold word at hdecode
  have hlimit : Nat.pow 256 4 = wordLimit := rfl
  rwa [Endian.decode_encode, Endian.decode_encode, hlimit, Nat.mod_eq_of_lt ha, Nat.mod_eq_of_lt hb]
    at hdecode

theorem marker_inj {p q : PointerEncoding} (h : p.marker = q.marker) : p = q := by
  have hdecode := congrArg PointerEncoding.ofMarker? h
  rw [PointerEncoding.ofMarker?_marker, PointerEncoding.ofMarker?_marker] at hdecode
  exact Option.some.inj hdecode

theorem siteBytes_inj {a b : Site} (hat : a.target.id < wordLimit) (hbt : b.target.id < wordLimit)
    (ha : a.offset < wordLimit) (hb : b.offset < wordLimit) (h : siteBytes a = siteBytes b) :
    a = b := by
  obtain ⟨aOffset, ⟨aTarget⟩, aEncoding⟩ := a
  obtain ⟨bOffset, ⟨bTarget⟩, bEncoding⟩ := b
  unfold siteBytes at h
  obtain ⟨hfront, hencoding⟩ := List.append_inj h (by simp)
  obtain ⟨htarget, hoffset⟩ := List.append_inj hfront (by simp)
  obtain rfl := word_inj hat hbt htarget
  obtain rfl := word_inj ha hb hoffset
  obtain rfl := marker_inj (List.singleton_inj.mp hencoding)
  rfl

theorem markBytes_inj {a b : Mark} (har : a.reference.id < wordLimit)
    (hbr : b.reference.id < wordLimit) (ha : a.offset < wordLimit) (hb : b.offset < wordLimit)
    (h : markBytes a = markBytes b) : a = b := by
  obtain ⟨⟨aReference⟩, aOffset⟩ := a
  obtain ⟨⟨bReference⟩, bOffset⟩ := b
  unfold markBytes at h
  obtain ⟨hreference, hoffset⟩ := List.append_inj h (by simp)
  obtain rfl := word_inj har hbr hreference
  obtain rfl := word_inj ha hb hoffset
  rfl

/-- Parts of one size can be read off their concatenation. -/
theorem flatMap_inj {α : Type} {f : α → Bytes} {size : Nat} (hpos : 0 < size)
    (hsize : ∀ a, (f a).length = size) {l l' : List α} (h : l.flatMap f = l'.flatMap f)
    (inj : ∀ a ∈ l, ∀ b ∈ l', f a = f b → a = b) : l = l' := by
  induction l generalizing l' with
  | nil =>
    cases l' with
    | nil => rfl
    | cons b l' =>
      have hlength := congrArg List.length h
      rw [List.flatMap_cons, List.length_append, hsize] at hlength
      simp only [List.flatMap_nil, List.length_nil] at hlength
      omega
  | cons a l ih =>
    cases l' with
    | nil =>
      have hlength := congrArg List.length h
      rw [List.flatMap_cons, List.length_append, hsize] at hlength
      simp only [List.flatMap_nil, List.length_nil] at hlength
      omega
    | cons b l' =>
      rw [List.flatMap_cons, List.flatMap_cons] at h
      obtain ⟨hfirst, hrest⟩ := List.append_inj h ((hsize a).trans (hsize b).symm)
      rw [inj a List.mem_cons_self b List.mem_cons_self hfirst,
        ih hrest fun x hx y hy => inj x (List.mem_cons_of_mem _ hx) y (List.mem_cons_of_mem _ hy)]

/-! ### The whole input -/

/-- Whether all numbers of a section are words. -/
structure InWords (s : Section) : Prop where
  alignment : s.alignment < wordLimit
  size : s.content.length < wordLimit
  reference : s.reference.id < wordLimit
  targets : ∀ site ∈ s.sites, site.target.id < wordLimit
  marks : ∀ mark ∈ s.marks, mark.reference.id < wordLimit

theorem length_flatMap_siteBytes (sites : List Site) :
    (sites.flatMap siteBytes).length = 9 * sites.length := by
  induction sites with
  | nil => rfl
  | cons a rest ih =>
    rw [List.flatMap_cons, List.length_append, ih, length_siteBytes, List.length_cons]
    omega

variable {s t : Section}

theorem WellFormed.offset_lt (h : s.WellFormed) (words : s.InWords) {site : Site}
    (hsite : site ∈ s.sites) : site.offset < wordLimit := by
  have hinside := h.slotsInside site hsite
  have hsize := words.size
  omega

theorem mem_sortedMarks {mark : Mark} : mark ∈ s.sortedMarks ↔ mark ∈ s.marks :=
  (Sorting.sortBy_perm _ s.marks).mem_iff

theorem WellFormed.mark_lt (h : s.WellFormed) (words : s.InWords) {mark : Mark}
    (hmark : mark ∈ s.sortedMarks) : mark.offset < wordLimit :=
  Nat.lt_of_le_of_lt (h.marksInside mark (mem_sortedMarks.mp hmark)) words.size

/-- The part for sites and marks is absent where there are none, and begins with a fixed word
otherwise. -/
theorem linkBytes_cases (s : Section) :
    (s.linkBytes = [] ∧ s.sites = [] ∧ s.sortedMarks = []) ∨
      s.linkBytes = Endian.little.encode 8 linkMarker
        ++ (s.sites.flatMap siteBytes ++ s.sortedMarks.flatMap markBytes) := by
  unfold linkBytes
  split
  · rename_i hempty
    rw [Bool.and_eq_true, List.isEmpty_iff, List.isEmpty_iff] at hempty
    refine Or.inl ⟨rfl, hempty.1, ?_⟩
    rw [sortedMarks, hempty.2]
    rfl
  · exact Or.inr (List.append_assoc ..)

/-- Sites and marks can be read off their part if it is known how many sites there are. -/
theorem links_of_linkBytes (hs : s.WellFormed) (ht : t.WellFormed) (hsw : s.InWords)
    (htw : t.InWords) (sites : s.sites.length = t.sites.length)
    (h : s.linkBytes = t.linkBytes) : s.sites = t.sites ∧ s.sortedMarks = t.sortedMarks := by
  have hmarker : (Endian.little.encode 8 linkMarker).length = 8 := Endian.length_encode ..
  rcases s.linkBytes_cases with ⟨hsNone, hsSites, hsMarks⟩ | hsSome
  · rcases t.linkBytes_cases with ⟨-, htSites, htMarks⟩ | htSome
    · exact ⟨hsSites.trans htSites.symm, hsMarks.trans htMarks.symm⟩
    · have hlength := congrArg List.length (hsNone.symm.trans (h.trans htSome))
      rw [List.length_nil, List.length_append, hmarker] at hlength
      omega
  · rcases t.linkBytes_cases with ⟨htNone, -, -⟩ | htSome
    · have hlength := congrArg List.length (htNone.symm.trans (h.symm.trans hsSome))
      rw [List.length_nil, List.length_append, hmarker] at hlength
      omega
    · have hparts := List.append_cancel_left (hsSome.symm.trans (h.trans htSome))
      obtain ⟨hsites, hmarks⟩ := List.append_inj hparts (by
        rw [length_flatMap_siteBytes, length_flatMap_siteBytes, sites])
      refine ⟨flatMap_inj (by decide) length_siteBytes hsites fun a ha b hb => ?_,
        flatMap_inj (by decide) length_markBytes hmarks fun a ha b hb => ?_⟩
      · exact siteBytes_inj (hsw.targets a ha) (htw.targets b hb) (hs.offset_lt hsw ha)
          (ht.offset_lt htw hb)
      · exact markBytes_inj (hsw.marks a (mem_sortedMarks.mp ha))
          (htw.marks b (mem_sortedMarks.mp hb)) (hs.mark_lt hsw ha) (ht.mark_lt htw hb)

/-- Sections with equal inputs are the same if their contents are equally long and they have equally
many sites. -/
theorem same_of_digestInput (hs : s.WellFormed) (ht : t.WellFormed) (hsw : s.InWords)
    (htw : t.InWords) (size : s.content.length = t.content.length)
    (sites : s.sites.length = t.sites.length) (h : s.digestInput = t.digestInput) : s.Same t := by
  unfold digestInput at h
  rw [List.append_assoc, List.append_assoc] at h
  obtain ⟨hcontent, h⟩ := List.append_inj h size
  obtain ⟨halignment, hlinks⟩ := List.append_inj h (by simp)
  obtain ⟨hsites, hmarks⟩ := links_of_linkBytes hs ht hsw htw sites hlinks
  exact
    { content := hcontent
      alignment := word_inj hsw.alignment htw.alignment halignment
      sites := hsites
      marks := by
        have hs' := Sorting.sortBy_perm (fun a b : Mark =>
          Sorting.lexLe (a.offset, a.reference.id) (b.offset, b.reference.id)) s.marks
        have ht' := Sorting.sortBy_perm (fun a b : Mark =>
          Sorting.lexLe (a.offset, a.reference.id) (b.offset, b.reference.id)) t.marks
        exact hs'.symm.trans ((List.Perm.of_eq hmarks).trans ht') }

/-! ### Merged sections -/

variable {e : Endian} {sections current : List Section}

/-- What stands in for a reference after a pass is the reference itself or that of a section. -/
theorem merges_resolve_mem (h : Coherent sections) (r : Reference) :
    (merges sections).resolve r = r ∨
      ∃ s ∈ sections, (merges sections).resolve r = s.reference := by
  by_cases hr : r ∈ sections.map (·.reference)
  · obtain ⟨s, hs, rfl⟩ := List.mem_map.mp hr
    obtain ⟨first, hfirst, hname, -⟩ := exists_kept h hs
    exact Or.inr ⟨first, (split_sublist [] sections).subset hfirst, hname.symm⟩
  · exact Or.inl (merges_resolve_of_not_mem hr)

/-- A pass keeps the numbers of sections words. -/
theorem inWords_afterPass (h : Coherent sections) (words : ∀ s ∈ sections, s.InWords) :
    ∀ s ∈ afterPass e sections, s.InWords := by
  refine List.forall_mem_map.mpr fun s hs => ?_
  have hs' := (split_sublist [] sections).subset hs
  have hstands := (h.wellFormed s hs').retarget_standsFor e (merges sections)
  have hwords := words s hs'
  refine
    { alignment := hwords.alignment
      size := hstands.size ▸ hwords.size
      reference := hwords.reference
      targets := ?_
      marks := hwords.marks }
  rw [hstands.sites]
  refine List.forall_mem_map.mpr fun site hsite => ?_
  rcases merges_resolve_mem h site.target with hsame | ⟨t, ht, hmoved⟩
  · rw [hsame]
    exact hwords.targets site hsite
  · rw [hmoved]
    exact (words t ht).reference

/-- Passes keep sections coherent and their numbers words. -/
theorem Passed.keeps (h : Passed e sections current) (coherent : Coherent sections)
    (words : ∀ s ∈ sections, s.InWords) : Coherent current ∧ ∀ s ∈ current, s.InWords := by
  induction h with
  | start => exact ⟨coherent, words⟩
  | pass _ _ ih => exact ih (coherent.afterPass e) (inWords_afterPass coherent words)

/-- Merged sections have equal digests. -/
theorem digest_eq_of_merged (h : Coherent sections) {s first : Section} (hs : s ∈ sections)
    (hfirst : first ∈ sections) (merged : (s.reference, first.reference) ∈ merges sections) :
    s.digest = first.digest := by
  obtain ⟨t, ht, href, hseen | ⟨kept, hkept, hkept', hdigest⟩⟩ := split_merged merged
  · cases hseen
  · obtain rfl := eq_of_reference_eq h ht hs href
    have hsub := (split_sublist [] sections).subset hkept
    obtain rfl := eq_of_reference_eq h hsub hfirst hkept'
    exact hdigest.symm

end Section

namespace Draft

/-- Whether references and positions of a draft are words. -/
structure InWords (d : Draft) : Prop where
  references : d.supply.next ≤ wordLimit
  buffer : d.buffer.length < wordLimit

theorem Valid.sections_inWords {d : Draft} (h : d.Valid) (words : d.InWords) (unit : Nat) :
    ∀ s ∈ d.sections unit, s.InWords := by
  intro s hs
  obtain ⟨block, hblock, body, hbody, -, rfl⟩ := mem_sections.mp hs
  have hvalid := h.bodies block hblock body hbody
  have hnext := words.references
  refine
    { alignment := h.alignmentsFit block hblock
      size := ?_
      reference := Nat.lt_of_lt_of_le (h.referencesKnown block hblock) hnext
      targets := fun site hsite => Nat.lt_of_lt_of_le (hvalid.targetsKnown site hsite) hnext
      marks := fun mark hmark => Nat.lt_of_lt_of_le (hvalid.marksKnown mark hmark) hnext }
  have hbuffer := words.buffer
  show ((d.buffer.drop body.start).take body.size).length < wordLimit
  rw [List.length_take, List.length_drop]
  omega

/-- Even if equal digests mean equal inputs, two sections that a pass merges are the same exactly if
their contents are equally long and they have equally many sites. -/
theorem merged_same_iff {d : Draft} (reachable : d.Reachable) (words : d.InWords) {unit : Nat}
    {current : List Section} (passed : Section.Passed d.endian (d.sections unit) current)
    (honest : ∀ s ∈ current, ∀ t ∈ current, s.digest = t.digest → s.digestInput = t.digestInput)
    {s first : Section} (hs : s ∈ current) (hfirst : first ∈ current)
    (merged : (s.reference, first.reference) ∈ Section.merges current) :
    s.Same first ↔
      s.content.length = first.content.length ∧ s.sites.length = first.sites.length := by
  obtain ⟨hcoherent, hwords⟩ := passed.keeps (reachable.valid.coherent unit)
    (reachable.valid.sections_inWords words unit)
  constructor
  · intro hsame
    exact ⟨congrArg List.length hsame.content, congrArg List.length hsame.sites⟩
  · rintro ⟨hsize, hsites⟩
    have hdigest := Section.digest_eq_of_merged hcoherent hs hfirst merged
    exact Section.same_of_digestInput (hcoherent.wellFormed s hs) (hcoherent.wellFormed first hfirst)
      (hwords s hs) (hwords first hfirst) hsize hsites (honest s hs first hfirst hdigest)

/-- The twins are merged, and they are the same. -/
theorem merged_same_iff_twins : ∃ d, twins .chained = some d ∧ d.InWords ∧
    ∃ s ∈ d.sections 0, ∃ first ∈ d.sections 0,
      (s.reference, first.reference) ∈ Section.merges (d.sections 0) ∧
      (s.Same first ↔
        s.content.length = first.content.length ∧ s.sites.length = first.sites.length) := by
  have hcheck : (twins .chained).any (fun d => d.supply.next ≤ wordLimit
      && d.buffer.length < wordLimit
      && (d.sections 0).all (fun s => (d.sections 0).all fun t =>
        s.digestInput = t.digestInput || s.digest ≠ t.digest)
      && (d.sections 0).any fun s => (d.sections 0).any fun first =>
        (s.reference, first.reference) ∈ Section.merges (d.sections 0)) = true := by decide +kernel
  simp only [Option.any_eq_true, Bool.and_eq_true, decide_eq_true_eq, List.all_eq_true,
    List.any_eq_true, Bool.or_eq_true] at hcheck
  obtain ⟨d, hd, ⟨⟨hnext, hbuffer⟩, hhonest⟩, s, hs, first, hfirst, hmerged⟩ := hcheck
  have hwords : d.InWords := ⟨hnext, hbuffer⟩
  refine ⟨d, hd, hwords, s, hs, first, hfirst, hmerged, ?_⟩
  refine merged_same_iff (reachable_of_after? hd) hwords (.start _) ?_ hs hfirst hmerged
  intro s hs t ht hdigest
  exact (hhonest s hs t ht).resolve_right fun hne => hne hdigest

/-- A block of one byte with a mark behind it, and a block of seventeen bytes that spell out what the
digest covers of the first. -/
def lookalikes : Option Draft :=
  (blank .win64 .chained .full).after?
    [.registerUnit .empty, .openUnit 0,
      .newBlock 1 none, .openBlock ⟨1⟩, .write (.bytes [0]), .mark .empty, .closeBlock,
      .newBlock 1 none, .openBlock ⟨2⟩,
      .write (.bytes [0, 1, 0, 0, 0, 0xbe, 0xba, 0xfe, 0xca, 0xef, 0xbe, 0xad, 0xde, 0, 0, 0, 0]),
      .closeBlock, .closeUnit]

/-- Blocks of different contents are merged although their digests do not collide. -/
theorem exists_merged_different : ∃ d, lookalikes = some d ∧ d.Reachable ∧ d.InWords ∧
    ∃ s ∈ d.sections 0, ∃ first ∈ d.sections 0,
      (s.reference, first.reference) ∈ Section.merges (d.sections 0) ∧
      s.digestInput = first.digestInput ∧ s.content ≠ first.content := by
  have hcheck : lookalikes.any (fun d => d.supply.next ≤ wordLimit
      && d.buffer.length < wordLimit
      && (d.sections 0).any fun s => (d.sections 0).any fun first =>
        (s.reference, first.reference) ∈ Section.merges (d.sections 0)
          && s.digestInput = first.digestInput && s.content ≠ first.content) = true := by
    decide +kernel
  simp only [Option.any_eq_true, Bool.and_eq_true, decide_eq_true_eq, List.any_eq_true] at hcheck
  obtain ⟨d, hd, ⟨hnext, hbuffer⟩, s, hs, first, hfirst, ⟨hmerged, hinput⟩, hcontent⟩ := hcheck
  exact ⟨d, hd, reachable_of_after? hd, ⟨hnext, hbuffer⟩, s, hs, first, hfirst, hmerged, hinput,
    hcontent⟩

end Draft

end ObjectPack
