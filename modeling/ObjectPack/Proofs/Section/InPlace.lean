import ObjectPack.Proofs.Section.Grouped
import ObjectPack.Proofs.Section.Pass

/-!
# Replacing references in place

Sections are cut out of a buffer, and a pass of merging makes new ones.  The same can be done in place: the blocks of
a data unit stay where they are in the buffer that all blocks share, their sites are kept by targets, and for each
merged block the references to it are replaced one after another in every block that is left, in its lists and in the
buffer (`StoredBlock.redirectBlocks`).  The sections of the blocks are then the sections with their references
replaced, and nothing of the buffer changes but slots of these blocks (`StoredBlock.redirectBlocks_redirected`).

This rests on the slots holding the numbers of the references that are kept for them.  Then the content of a block is
known from its sites and from the bytes outside of its slots (`Section.eq_of_numbered`), in whatever order slots have
been written.
-/

namespace ObjectPack

theorem Bytes.AgreeWhere.trans {P : Nat → Prop} {b c d : Bytes} (h : AgreeWhere P b c) (h' : AgreeWhere P c d) :
    AgreeWhere P b d :=
  ⟨h'.length.trans h.length, fun i hi => (h'.bytes i hi).trans (h.bytes i hi)⟩

/-! ### Sections by their slots -/

/-- Two sections that stand for a third one with the same targets, and whose slots hold the numbers of these, are
equal. -/
theorem Section.eq_of_numbered {e : Endian} {k l s : Section} {f : Reference → Reference} (hk : k.StandsFor f s)
    (hl : l.StandsFor f s) (numbered : k.Numbered e) (numbered' : l.Numbered e) (reference : k.reference = l.reference)
    (marks : k.marks = l.marks) : k = l := by
  have hsites : k.sites = l.sites := hk.sites.trans hl.sites.symm
  have hcontent : k.content = l.content := by
    refine List.ext_getElem? fun i => ?_
    by_cases hout : k.Outside i
    · rw [hk.content i ((hk.outside i).mp hout), hl.content i ((hk.outside i).mp hout)]
    · -- A position in a slot.
      simp only [Outside, not_forall, not_or, Nat.not_lt, Nat.not_le] at hout
      obtain ⟨site, hsite, hlow, hhigh⟩ := hout
      obtain ⟨j, rfl⟩ := Nat.exists_eq_add_of_le hlow
      have hj : j < (placeholder e site.target).length := by
        rw [length_placeholder]
        omega
      rw [numbered site hsite j hj, numbered' site (hsites ▸ hsite) j hj]
  have halignment := hk.alignment.trans hl.alignment.symm
  cases k
  cases l
  simp only [Section.mk.injEq]
  exact ⟨reference, halignment, hcontent, hsites, marks⟩

/-! ### Blocks in a shared buffer -/

/-- A block as it is kept while blocks are merged; its content stands in the buffer that all blocks share. -/
structure StoredBlock where
  reference : Reference
  alignment : Nat
  /-- Start of the content in the buffer. -/
  start : Nat
  size : Nat
  pointers : Grouped
  marks : List Mark

namespace StoredBlock

/-- A block that has been filled. -/
def of (block : Block) (body : Body) : StoredBlock :=
  ⟨block.reference, block.alignment, body.start, body.size, .ofSites body.sites, body.marks⟩

/-- The content of a block. -/
def content (b : StoredBlock) (buffer : Bytes) : Bytes := (buffer.drop b.start).take b.size

/-- The section of a block. -/
def toSection (b : StoredBlock) (buffer : Bytes) : Section :=
  ⟨b.reference, b.alignment, b.content buffer, b.pointers.sorted, b.marks⟩

/-- The digest of a block: of its content, of its alignment, and of its sites and marks in the order of their offsets
if it has lists of sites or marks. -/
def digest (b : StoredBlock) (buffer : Bytes) : Digest :=
  Digest.compute (b.content buffer ++ Section.word b.alignment ++
    if b.pointers.isEmpty && b.marks.isEmpty then []
    else Endian.little.encode 8 Section.linkMarker ++ b.pointers.sorted.flatMap Section.siteBytes ++
      (b.toSection buffer).sortedMarks.flatMap Section.markBytes)

/-- Makes the sites that refer to one block refer to another one, in the lists and in the buffer. -/
def redirect (e : Endian) (old new : Reference) (b : StoredBlock) (buffer : Bytes) : StoredBlock × Bytes :=
  match b.pointers.lookup old with
  | none => (b, buffer)
  | some places => ({ b with pointers := b.pointers.replace old new },
      places.foldl (fun buffer p => buffer.overwrite (b.start + p.offset) (Section.placeholder e new)) buffer)

/-- Makes replacements one after another. -/
def redirectAll (e : Endian) : Aliases → StoredBlock → Bytes → StoredBlock × Bytes
  | [], b, buffer => (b, buffer)
  | (old, new) :: rest, b, buffer => redirectAll e rest (b.redirect e old new buffer).1 (b.redirect e old new buffer).2

/-- Makes replacements in one block after another. -/
def redirectBlocks (e : Endian) (replaced : Aliases) : List StoredBlock → Bytes → List StoredBlock × Bytes
  | [], buffer => ([], buffer)
  | b :: rest, buffer =>
    let result := b.redirectAll e replaced buffer
    let others := redirectBlocks e replaced rest result.2
    (result.1 :: others.1, others.2)

/-- Whether a position of the buffer lies in no slot of a block. -/
def Outside (b : StoredBlock) (i : Nat) : Prop :=
  ∀ site ∈ b.pointers.sites, i < b.start + site.offset ∨ b.start + site.offset + Pointer.slotSize ≤ i

/-- Whether a position of the buffer lies in the content of a block. -/
def Inside (b : StoredBlock) (i : Nat) : Prop := b.start ≤ i ∧ i < b.start + b.size

/-- Whether the contents of two blocks have no byte in common. -/
def Apart (b c : StoredBlock) : Prop := b.start + b.size ≤ c.start ∨ c.start + c.size ≤ b.start

/-- Where the content of a block begins, and how long it is. -/
def extent (b : StoredBlock) : Nat × Nat := (b.start, b.size)

/-- What holds of a block while blocks are merged: its lists are as they are to be, its content lies in the buffer and
is well-formed, and its slots hold the numbers of the references that are kept for them. -/
structure Intact (e : Endian) (buffer : Bytes) (b : StoredBlock) : Prop where
  kept : b.pointers.Kept
  inside : b.start + b.size ≤ buffer.length
  wellFormed : (b.toSection buffer).WellFormed
  numbered : (b.toSection buffer).Numbered e

variable {e : Endian} {buffer buffer' : Bytes} {b b' c : StoredBlock} {old new : Reference} {blocks : List StoredBlock}
  {replaced : Aliases}

/-- What is compared in place is what is compared of sections. -/
theorem digest_eq (kept : b.pointers.Kept) (buffer : Bytes) : b.digest buffer = (b.toSection buffer).digest := by
  have hempty : b.pointers.isEmpty = b.pointers.sorted.isEmpty := by
    rw [Bool.eq_iff_iff, List.isEmpty_iff, List.isEmpty_iff, kept.sorted_eq_nil]
  unfold digest
  rw [hempty]
  rfl

/-! ### Contents -/

theorem getElem?_content (b : StoredBlock) (buffer : Bytes) {i : Nat} (hi : i < b.size) :
    (b.content buffer)[i]? = buffer[b.start + i]? := by
  rw [content, List.getElem?_take_of_lt hi, List.getElem?_drop]

theorem length_content (inside : b.start + b.size ≤ buffer.length) : (b.content buffer).length = b.size := by
  rw [content, List.length_take, List.length_drop]
  omega

/-- Slots in a block are slots in the buffer. -/
theorem hasAt_content {offset : Nat} {t : Bytes} (inside : offset + t.length ≤ b.size) :
    (b.content buffer).HasAt offset t ↔ buffer.HasAt (b.start + offset) t := by
  refine forall₂_congr fun i hi => ?_
  rw [getElem?_content b buffer (by omega), Nat.add_assoc]

/-- A block is the same in buffers that hold the same content. -/
theorem toSection_congr (agree : Bytes.AgreeWhere b.Inside buffer buffer') : b.toSection buffer' = b.toSection buffer := by
  have hcontent : b.content buffer' = b.content buffer := by
    refine List.ext_getElem? fun i => ?_
    by_cases hi : i < b.size
    · rw [getElem?_content b _ hi, getElem?_content b _ hi]
      exact agree.bytes _ ⟨by omega, by omega⟩
    · rw [List.getElem?_eq_none, List.getElem?_eq_none]
      · exact Nat.le_trans (List.length_take_le _ _) (Nat.le_of_not_lt hi)
      · exact Nat.le_trans (List.length_take_le _ _) (Nat.le_of_not_lt hi)
  rw [toSection, hcontent, toSection]

/-- What happens elsewhere in the buffer leaves a block intact. -/
theorem Intact.congr (h : b.Intact e buffer) (agree : Bytes.AgreeWhere b.Inside buffer buffer') :
    b.Intact e buffer' where
  kept := h.kept
  inside := agree.length ▸ h.inside
  wellFormed := toSection_congr agree ▸ h.wellFormed
  numbered := toSection_congr agree ▸ h.numbered

theorem Intact.slot_le (h : b.Intact e buffer) {s : Site} (hs : s ∈ b.pointers.sites) :
    s.offset + Pointer.slotSize ≤ b.size := by
  have hle := h.wellFormed.slotsInside s (b.pointers.sorted_perm.mem_iff.mpr hs)
  rwa [show (b.toSection buffer).content.length = b.size from length_content h.inside] at hle

/-- The slots of a block hold the numbers of what it refers to. -/
theorem Intact.slot (h : b.Intact e buffer) {s : Site} (hs : s ∈ b.pointers.sites) :
    buffer.HasAt (b.start + s.offset) (Section.placeholder e s.target) := by
  refine (hasAt_content ?_).mp (h.numbered s (b.pointers.sorted_perm.mem_iff.mpr hs))
  rw [Section.length_placeholder]
  exact h.slot_le hs

/-- Whatever lies in the content of one block lies in no slot of another one. -/
theorem Intact.outside_of_apart (h : b.Intact e buffer) (apart : b.Apart c) {i : Nat} (hi : c.Inside i) :
    b.Outside i := by
  intro s hs
  have hle := h.slot_le hs
  unfold Inside at hi
  rcases apart with h | h <;> omega

/-- Blocks of the same extents have no byte in common either. -/
theorem pairwise_apart_congr {blocks' : List StoredBlock} (same : blocks'.map extent = blocks.map extent)
    (h : blocks.Pairwise Apart) : blocks'.Pairwise Apart := by
  have hextents : ∀ l : List StoredBlock, l.Pairwise Apart ↔
      (l.map extent).Pairwise fun x y => x.1 + x.2 ≤ y.1 ∨ y.1 + y.2 ≤ x.1 := fun l => by
    rw [List.pairwise_map]
    rfl
  rw [hextents, same, ← hextents]
  exact h

/-! ### Replacing a reference -/

/-- Whether one block in its buffer is another one with the targets of its sites replaced, and nothing else of the
buffer has changed but slots of the block. -/
structure Becomes (b : StoredBlock) (buffer : Bytes) (f : Reference → Reference) (b' : StoredBlock) (buffer' : Bytes) :
    Prop where
  reference : b'.reference = b.reference
  alignment : b'.alignment = b.alignment
  start : b'.start = b.start
  size : b'.size = b.size
  marks : b'.marks = b.marks
  sorted : b'.pointers.sorted = b.pointers.sorted.map fun s => { s with target := f s.target }
  bytes : Bytes.AgreeWhere b.Outside buffer buffer'

theorem becomes_self (b : StoredBlock) (buffer : Bytes) : b.Becomes buffer id b buffer :=
  ⟨rfl, rfl, rfl, rfl, rfl, (List.map_id _).symm, .refl _ _⟩

theorem outside_iff_sorted (b : StoredBlock) (i : Nat) : b.Outside i ↔
    ∀ s ∈ b.pointers.sorted, i < b.start + s.offset ∨ b.start + s.offset + Pointer.slotSize ≤ i :=
  forall_congr' fun s => by rw [b.pointers.sorted_perm.mem_iff]

theorem Becomes.outside {f : Reference → Reference} (h : b.Becomes buffer f b' buffer') (i : Nat) :
    b'.Outside i ↔ b.Outside i := by
  rw [outside_iff_sorted, outside_iff_sorted, h.sorted, h.start, List.forall_mem_map]

theorem Becomes.trans {f g : Reference → Reference} {buffer'' : Bytes} (h : b.Becomes buffer f b' buffer')
    (h' : b'.Becomes buffer' g c buffer'') : b.Becomes buffer (g ∘ f) c buffer'' where
  reference := h'.reference.trans h.reference
  alignment := h'.alignment.trans h.alignment
  start := h'.start.trans h.start
  size := h'.size.trans h.size
  marks := h'.marks.trans h.marks
  sorted := by
    rw [h'.sorted, h.sorted, List.map_map]
    rfl
  bytes := h.bytes.trans (h'.bytes.mono fun i => (h.outside i).mpr)

/-- A block stays well-formed when targets of its sites are replaced. -/
theorem Becomes.wellFormed {f : Reference → Reference} (h : b.Becomes buffer f b' buffer') (intact : b.Intact e buffer) :
    (b'.toSection buffer').WellFormed := by
  have hlength : (b'.content buffer').length = (b.content buffer).length := by
    rw [length_content intact.inside, length_content, h.size]
    rw [h.start, h.size, h.bytes.length]
    exact intact.inside
  exact
    { power := by
        show isPowerOfTwo b'.alignment = true
        rw [h.alignment]
        exact intact.wellFormed.power
      slots := by
        show b'.pointers.sorted.Pairwise _
        rw [h.sorted]
        exact List.pairwise_map.mpr intact.wellFormed.slots
      slotsInside := by
        show ∀ site ∈ b'.pointers.sorted, _ ≤ (b'.content buffer').length
        rw [h.sorted, hlength]
        exact List.forall_mem_map.mpr intact.wellFormed.slotsInside
      marksInside := by
        show ∀ mark ∈ b'.marks, _ ≤ (b'.content buffer').length
        rw [h.marks, hlength]
        exact intact.wellFormed.marksInside }

/-- The slots of the sites that refer to a reference. -/
def slots (e : Endian) (new : Reference) (b : StoredBlock) (places : List Place) : List (Nat × Bytes) :=
  places.map fun p => (b.start + p.offset, Section.placeholder e new)

theorem redirect_of_some {places : List Place} (h : b.pointers.lookup old = some places) (e : Endian) (new : Reference)
    (buffer : Bytes) : b.redirect e old new buffer =
      ({ b with pointers := b.pointers.replace old new }, patchAll buffer (b.slots e new places)) := by
  rw [redirect, h, slots, patchAll, List.foldl_map]

section Slots

variable {places : List Place} {slot : Nat × Bytes}

theorem mem_slots (kept : b.pointers.Kept) (found : b.pointers.lookup old = some places) :
    slot ∈ b.slots e new places ↔ ∃ s ∈ b.pointers.sites, s.target = old ∧
      slot = (b.start + s.offset, Section.placeholder e new) := by
  have hsites := Grouped.sites_of_lookup kept.once found
  constructor
  · intro h
    obtain ⟨p, hp, rfl⟩ := List.mem_map.mp h
    have hmem : p.toSite old ∈ b.pointers.sites.filter (·.target = old) := hsites ▸ List.mem_map_of_mem hp
    exact ⟨_, (List.mem_filter.mp hmem).1, rfl, rfl⟩
  · rintro ⟨s, hs, htarget, rfl⟩
    have hmem : s ∈ places.map (Place.toSite old) :=
      hsites ▸ List.mem_filter.mpr ⟨hs, decide_eq_true htarget⟩
    obtain ⟨p, hp, rfl⟩ := List.mem_map.mp hmem
    exact List.mem_map_of_mem hp

theorem Intact.slots_inside (h : b.Intact e buffer) (found : b.pointers.lookup old = some places) (new : Reference) :
    ∀ slot ∈ b.slots e new places, slot.1 + slot.2.length ≤ buffer.length := by
  intro slot hslot
  obtain ⟨s, hs, -, rfl⟩ := (mem_slots h.kept found).mp hslot
  have hle := h.slot_le hs
  have hinside := h.inside
  rw [Section.length_placeholder]
  omega

theorem Intact.eq_or_apart (h : b.Intact e buffer) {s t : Site} (hs : s ∈ b.pointers.sites)
    (ht : t ∈ b.pointers.sites) : s = t ∨ Section.SitesApart s t :=
  h.wellFormed.eq_or_apart (b.pointers.sorted_perm.mem_iff.mpr hs) (b.pointers.sorted_perm.mem_iff.mpr ht)

/-- What is written when a reference is replaced stands there afterwards, and the slots of other references hold what
they have held. -/
theorem Intact.slot_patched (h : b.Intact e buffer) (found : b.pointers.lookup old = some places) {s : Site}
    (hs : s ∈ b.pointers.sites) : (patchAll buffer (b.slots e new places)).HasAt (b.start + s.offset)
      (Section.placeholder e (if s.target = old then new else s.target)) := by
  have hinside := h.slots_inside found new
  by_cases htarget : s.target = old
  · rw [if_pos htarget]
    refine patchAll_hasAt (x := (b.start + s.offset, Section.placeholder e new)) hinside (fun x hx y hy => ?_)
      ((mem_slots h.kept found).mpr ⟨s, hs, htarget, rfl⟩)
    obtain ⟨t, ht, -, rfl⟩ := (mem_slots h.kept found).mp hx
    obtain ⟨u, hu, -, rfl⟩ := (mem_slots h.kept found).mp hy
    rcases h.eq_or_apart ht hu with rfl | hbefore | hbehind
    · exact Or.inl rfl
    · right; left
      rw [Section.length_placeholder]
      omega
    · right; right
      rw [Section.length_placeholder]
      omega
  · rw [if_neg htarget]
    intro i hi
    have hlength := Section.length_placeholder e s.target
    rw [getElem?_patchAll hinside, h.slot hs i hi]
    -- A slot that is written belongs to another site.
    intro slot hslot
    obtain ⟨t, ht, hold, rfl⟩ := (mem_slots h.kept found).mp hslot
    rw [Section.length_placeholder]
    rcases h.eq_or_apart hs ht with rfl | hbefore | hbehind
    · exact absurd hold htarget
    · left
      omega
    · right
      omega

/-- What is written when a reference is replaced in the lists of the block makes the block another one. -/
theorem Intact.becomes_patched (h : b.Intact e buffer) (found : b.pointers.lookup old = some places) :
    b.Becomes buffer (fun r => if r = old then new else r) { b with pointers := b.pointers.replace old new }
      (patchAll buffer (b.slots e new places)) where
  reference := rfl
  alignment := rfl
  start := rfl
  size := rfl
  marks := rfl
  sorted := by
    have hperm := Grouped.sites_replace h.kept.once old new
    refine Grouped.sorted_eq (hperm.trans (b.pointers.sorted_perm.symm.map _)) (List.pairwise_map.mpr ?_)
    exact h.wellFormed.slots.imp Site.offset_lt
  bytes := by
    have hinside := h.slots_inside found new
    refine ⟨length_patchAll hinside, fun i hi => getElem?_patchAll hinside fun slot hslot => ?_⟩
    obtain ⟨s, hs, -, rfl⟩ := (mem_slots h.kept found).mp hslot
    rw [Section.length_placeholder]
    exact hi s hs

theorem Intact.patched (h : b.Intact e buffer) (found : b.pointers.lookup old = some places) :
    StoredBlock.Intact e (patchAll buffer (b.slots e new places))
      { b with pointers := b.pointers.replace old new } where
  kept := h.kept.replace old new
  inside := (length_patchAll (h.slots_inside found new)).symm ▸ h.inside
  wellFormed := (h.becomes_patched found).wellFormed h
  numbered := by
    intro site hsite
    have hmem : site ∈ (b.pointers.replace old new).sorted := hsite
    rw [(h.becomes_patched found).sorted] at hmem
    obtain ⟨s, hs, rfl⟩ := List.mem_map.mp hmem
    have hsite := b.pointers.sorted_perm.mem_iff.mp hs
    have hle := h.slot_le hsite
    refine (hasAt_content ?_).mpr (h.slot_patched found hsite)
    rw [Section.length_placeholder]
    exact hle

end Slots

/-- Replacing a reference replaces it in the sites of the block and in their slots. -/
theorem Intact.redirect (h : b.Intact e buffer) (old new : Reference) :
    b.Becomes buffer (fun r => if r = old then new else r) (b.redirect e old new buffer).1
      (b.redirect e old new buffer).2 ∧ (b.redirect e old new buffer).1.Intact e (b.redirect e old new buffer).2 := by
  cases hlookup : b.pointers.lookup old with
  | none =>
    have hsame : b.redirect e old new buffer = (b, buffer) := by rw [StoredBlock.redirect, hlookup]
    have hsites := Grouped.map_redirect_of_ne
      (fun s hs => Grouped.sites_of_none hlookup s (b.pointers.sorted_perm.mem_iff.mp hs)) new
    rw [hsame]
    exact ⟨⟨rfl, rfl, rfl, rfl, rfl, hsites.symm, .refl _ _⟩, h⟩
  | some places =>
    rw [redirect_of_some hlookup]
    exact ⟨h.becomes_patched hlookup, h.patched hlookup⟩

/-! ### Replacing several references -/

/-- One replacement after another. -/
def inTurn : Aliases → Reference → Reference
  | [], r => r
  | (old, new) :: rest, r => inTurn rest (if r = old then new else r)

theorem inTurn_of_not_mem {r : Reference} (h : r ∉ replaced.map Prod.fst) : inTurn replaced r = r := by
  induction replaced with
  | nil => rfl
  | cons p rest ih =>
    rw [List.map_cons, List.mem_cons, not_or] at h
    rw [inTurn, if_neg h.1]
    exact ih h.2

/-- Where nothing that is put in is replaced itself, all replacements may be made at once. -/
theorem inTurn_eq_resolve (settled : ∀ p ∈ replaced, p.2 ∉ replaced.map Prod.fst) (r : Reference) :
    inTurn replaced r = replaced.resolve r := by
  induction replaced with
  | nil => rfl
  | cons p rest ih =>
    obtain ⟨old, new⟩ := p
    have hrest : ∀ p ∈ rest, p.2 ∉ rest.map Prod.fst := fun p hp hmem =>
      settled p (List.mem_cons_of_mem _ hp) (List.mem_cons_of_mem _ hmem)
    rw [inTurn, Aliases.resolve, List.lookup_cons]
    by_cases hr : r = old
    · have hnew : new ∉ rest.map Prod.fst := fun hmem =>
        settled _ List.mem_cons_self (List.mem_cons_of_mem _ hmem)
      rw [if_pos hr, hr, beq_self_eq_true, inTurn_of_not_mem hnew]
      rfl
    · rw [if_neg hr, beq_eq_false_iff_ne.mpr hr]
      exact ih hrest

theorem Intact.redirectAll (h : b.Intact e buffer) (replaced : Aliases) :
    b.Becomes buffer (inTurn replaced) (b.redirectAll e replaced buffer).1 (b.redirectAll e replaced buffer).2 ∧
      (b.redirectAll e replaced buffer).1.Intact e (b.redirectAll e replaced buffer).2 := by
  induction replaced generalizing b buffer with
  | nil => exact ⟨b.becomes_self buffer, h⟩
  | cons p rest ih =>
    obtain ⟨hbecomes, hintact⟩ := h.redirect p.1 p.2
    obtain ⟨hrest, hlast⟩ := ih hintact
    exact ⟨hbecomes.trans hrest, hlast⟩

/-- A block whose references have been replaced in place is the section with its references replaced. -/
theorem Becomes.toSection_eq (h : b.Becomes buffer replaced.resolve b' buffer') (intact : b.Intact e buffer)
    (intact' : b'.Intact e buffer') : b'.toSection buffer' = (b.toSection buffer).retarget e replaced := by
  have hretarget := intact.wellFormed.retarget_standsFor e replaced
  have hstands : (b'.toSection buffer').StandsFor replaced.resolve (b.toSection buffer) :=
    { alignment := h.alignment
      size := by
        show (b'.content buffer').length = (b.content buffer).length
        rw [length_content intact.inside, length_content intact'.inside, h.size]
      content := by
        intro i hi
        show (b'.content buffer')[i]? = (b.content buffer)[i]?
        by_cases hsize : i < b.size
        · rw [getElem?_content b _ hsize, getElem?_content b' _ (h.size ▸ hsize), h.start]
          refine h.bytes.bytes _ fun s hs => ?_
          have hout := hi s (b.pointers.sorted_perm.mem_iff.mpr hs)
          omega
        · rw [List.getElem?_eq_none, List.getElem?_eq_none]
          · rw [length_content intact.inside]
            exact Nat.le_of_not_lt hsize
          · rw [length_content intact'.inside, h.size]
            exact Nat.le_of_not_lt hsize
      sites := h.sorted
      marks := .of_eq h.marks }
  exact Section.eq_of_numbered hstands hretarget intact'.numbered (intact.numbered.retarget intact.wellFormed replaced)
    h.reference h.marks

/-- Whether a block is what another one has been, but for the targets of its sites. -/
structure Stays (b b' : StoredBlock) : Prop where
  reference : b'.reference = b.reference
  alignment : b'.alignment = b.alignment
  start : b'.start = b.start
  size : b'.size = b.size
  marks : b'.marks = b.marks
  /-- The slots are where they were. -/
  outside : ∀ i, b'.Outside i ↔ b.Outside i

theorem stays_self (b : StoredBlock) : b.Stays b := ⟨rfl, rfl, rfl, rfl, rfl, fun _ => .rfl⟩

theorem Stays.trans (h : b.Stays b') (h' : b'.Stays c) : b.Stays c :=
  ⟨h'.reference.trans h.reference, h'.alignment.trans h.alignment, h'.start.trans h.start, h'.size.trans h.size,
    h'.marks.trans h.marks, fun i => (h'.outside i).trans (h.outside i)⟩

/-- What replacing references has made of a block, seen in the buffer in the end. -/
structure Redirected (e : Endian) (replaced : Aliases) (buffer buffer' : Bytes) (b b' : StoredBlock) : Prop where
  intact : b'.Intact e buffer'
  start : b'.start = b.start
  size : b'.size = b.size
  toSection : b'.toSection buffer' = (b.toSection buffer).retarget e replaced

theorem Redirected.congr (h : Redirected e replaced buffer buffer' b b') {buffer'' : Bytes}
    (agree : Bytes.AgreeWhere b.Inside buffer' buffer'') : Redirected e replaced buffer buffer'' b b' := by
  have hagree : Bytes.AgreeWhere b'.Inside buffer' buffer'' := agree.mono fun i hi => by
    unfold Inside at hi ⊢
    rwa [h.start, h.size] at hi
  exact ⟨h.intact.congr hagree, h.start, h.size, (toSection_congr hagree).trans h.toSection⟩

theorem Redirected.stays (h : Redirected e replaced buffer buffer' b b') : b.Stays b' := by
  have hsites : b'.pointers.sorted = b.pointers.sorted.map fun s => { s with target := replaced.resolve s.target } :=
    congrArg Section.sites h.toSection
  refine ⟨congrArg Section.reference h.toSection, congrArg Section.alignment h.toSection, h.start, h.size,
    congrArg Section.marks h.toSection, fun i => ?_⟩
  rw [outside_iff_sorted, outside_iff_sorted, hsites, h.start, List.forall_mem_map]

/-- Replacing references in blocks that have no byte in common replaces them in each of them, and nothing of the
buffer changes but slots of these blocks. -/
theorem redirectBlocks_redirected (settled : ∀ p ∈ replaced, p.2 ∉ replaced.map Prod.fst)
    (intact : ∀ b ∈ blocks, b.Intact e buffer) (apart : blocks.Pairwise Apart) :
    List.Forall₂ (Redirected e replaced buffer (redirectBlocks e replaced blocks buffer).2) blocks
        (redirectBlocks e replaced blocks buffer).1 ∧
      Bytes.AgreeWhere (fun i => ∀ b ∈ blocks, b.Outside i) buffer (redirectBlocks e replaced blocks buffer).2 := by
  induction blocks generalizing buffer with
  | nil => exact ⟨.nil, .refl _ _⟩
  | cons b rest ih =>
    obtain ⟨hb, hintact⟩ := List.forall_mem_cons.mp intact
    obtain ⟨hapart, hrest⟩ := List.pairwise_cons.mp apart
    obtain ⟨hbecomes, hb'⟩ := hb.redirectAll replaced
    rw [show inTurn replaced = replaced.resolve from funext (inTurn_eq_resolve settled)] at hbecomes
    -- The other blocks do not see what happens to the first one, nor does it see what happens to them.
    have hsame : ∀ c ∈ rest, Bytes.AgreeWhere c.Inside buffer (b.redirectAll e replaced buffer).2 := fun c hc =>
      hbecomes.bytes.mono fun i hi => hb.outside_of_apart (hapart c hc) hi
    obtain ⟨hall, hagree⟩ := ih (fun c hc => (hintact c hc).congr (hsame c hc)) hrest
    have hlater : Bytes.AgreeWhere b.Inside (b.redirectAll e replaced buffer).2
        (redirectBlocks e replaced (b :: rest) buffer).2 := hagree.mono fun i hi c hc =>
      (hintact c hc).outside_of_apart (hapart c hc).symm hi
    refine ⟨.cons ?_ ?_, ?_⟩
    · exact Redirected.congr ⟨hb', hbecomes.start, hbecomes.size, hbecomes.toSection_eq hb hb'⟩ hlater
    · refine ((List.forall₂_and_left _ _).mpr ⟨hsame, hall⟩).imp fun c c' hc => ?_
      exact ⟨hc.2.intact, hc.2.start, hc.2.size, toSection_congr hc.1 ▸ hc.2.toSection⟩
    · refine (hbecomes.bytes.mono fun i hi => ?_).trans (hagree.mono fun i hi => ?_)
      · exact hi b List.mem_cons_self
      · exact fun c hc => hi c (List.mem_cons_of_mem _ hc)

end StoredBlock

end ObjectPack
