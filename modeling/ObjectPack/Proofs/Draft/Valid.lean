import Mathlib.Data.List.Nodup
import ObjectPack.Proofs.Draft.Move

/-!
# Valid drafts

What holds of every draft that operations can produce (`Reachable.valid`):

* blocks have different references, all taken from the supply, and alignments that are powers of two
  and words;
* bodies lie inside the buffer and belong to registered data units;
* the slots of a body stand one behind the other, inside its content, and its marks inside it too;
* inside one data unit a reference is marked at most once, and references of blocks are never
  marked, so a reference has at most one meaning there;
* the open block ends where the buffer ends and belongs to the open data unit.

Each of the moves keeps all this (`Valid.move`).  Those that change a body are instances of one lemma
about replacing a block (`Valid.replace`).
-/

namespace ObjectPack.Draft

open Relation

/-- What holds of the body of a block in a draft. -/
structure BodyValid (d : Draft) (body : Body) : Prop where
  inside : body.start + body.size ≤ d.buffer.length
  registered : body.unit < d.units.length
  /-- The slots stand one behind the other. -/
  slots : body.sites.Pairwise fun a b => a.offset + Pointer.slotSize ≤ b.offset
  slotsInside : ∀ site ∈ body.sites, site.offset + Pointer.slotSize ≤ body.size
  targetsKnown : ∀ site ∈ body.sites, site.target.id < d.supply.next
  marksInside : ∀ mark ∈ body.marks, mark.offset ≤ body.size
  marksKnown : ∀ mark ∈ body.marks, mark.reference.id < d.supply.next
  marksOnce : (body.marks.map (·.reference)).Nodup

/-- Whether no reference is marked in both of two blocks of one data unit. -/
def MarksApart (a b : Block) : Prop :=
  ∀ bodyA ∈ a.body, ∀ bodyB ∈ b.body, bodyA.unit = bodyB.unit →
    ∀ markA ∈ bodyA.marks, ∀ markB ∈ bodyB.marks, markA.reference ≠ markB.reference

/-- What holds of every draft that comes about by operations. -/
structure Valid (d : Draft) : Prop where
  referencesOnce : (d.blocks.map (·.reference)).Nodup
  referencesKnown : ∀ block ∈ d.blocks, block.reference.id < d.supply.next
  powers : ∀ block ∈ d.blocks, isPowerOfTwo block.alignment = true
  alignmentsFit : ∀ block ∈ d.blocks, block.alignment < wordLimit
  bodies : ∀ block ∈ d.blocks, ∀ body ∈ block.body, d.BodyValid body
  /-- A reference that is marked names no block. -/
  marksUnnamed : ∀ block ∈ d.blocks, ∀ body ∈ block.body, ∀ mark ∈ body.marks,
    ∀ other ∈ d.blocks, other.reference ≠ mark.reference
  marksApart : d.blocks.Pairwise MarksApart
  unitRegistered : ∀ unit ∈ d.currentUnit, unit < d.units.length
  /-- The open block is the last thing in the buffer, and its data unit is the open one. -/
  cursor : ∀ index block body, d.active? = some (index, block, body) →
    body.start + body.size = d.buffer.length ∧ d.currentUnit = some body.unit

variable {d d' : Draft} {index : Nat} {block : Block} {body : Body}
  {allowed : PointerEncoding → Prop}

/-- A block is known by its reference. -/
theorem Valid.eq_of_reference (valid : d.Valid) {a b : Block} (ha : a ∈ d.blocks)
    (hb : b ∈ d.blocks) (h : a.reference = b.reference) : a = b :=
  List.inj_on_of_nodup_map valid.referencesOnce ha hb h

/-! ### Growing drafts -/

/-- A body stays valid while buffer, data units and supply grow. -/
theorem BodyValid.mono (h : d.BodyValid body) (buffer : d.buffer.length ≤ d'.buffer.length)
    (units : d.units.length ≤ d'.units.length) (supply : d.supply.next ≤ d'.supply.next) :
    d'.BodyValid body where
  inside := Nat.le_trans h.inside buffer
  registered := Nat.lt_of_lt_of_le h.registered units
  slots := h.slots
  slotsInside := h.slotsInside
  targetsKnown site hsite := Nat.lt_of_lt_of_le (h.targetsKnown site hsite) supply
  marksInside := h.marksInside
  marksKnown mark hmark := Nat.lt_of_lt_of_le (h.marksKnown mark hmark) supply
  marksOnce := h.marksOnce

/-- A draft stays valid while buffer, data units and supply grow and its blocks stay. -/
theorem Valid.mono (h : d.Valid) (blocks : d'.blocks = d.blocks)
    (buffer : d.buffer.length ≤ d'.buffer.length) (units : d.units.length ≤ d'.units.length)
    (supply : d.supply.next ≤ d'.supply.next)
    (unitRegistered : ∀ unit ∈ d'.currentUnit, unit < d'.units.length)
    (cursor : ∀ index block body, d'.active? = some (index, block, body) →
      body.start + body.size = d'.buffer.length ∧ d'.currentUnit = some body.unit) :
    d'.Valid where
  referencesOnce := blocks ▸ h.referencesOnce
  referencesKnown block hblock :=
    Nat.lt_of_lt_of_le (h.referencesKnown block (blocks ▸ hblock)) supply
  powers := blocks ▸ h.powers
  alignmentsFit := blocks ▸ h.alignmentsFit
  bodies block hblock body hbody :=
    (h.bodies block (blocks ▸ hblock) body hbody).mono buffer units supply
  marksUnnamed := blocks ▸ h.marksUnnamed
  marksApart := blocks ▸ h.marksApart
  unitRegistered := unitRegistered
  cursor := cursor

theorem MarksApart.symm {a b : Block} (h : MarksApart a b) : MarksApart b a :=
  fun bodyB hB bodyA hA hunit markB hmB markA hmA heq =>
    h bodyA hA bodyB hB hunit.symm markA hmA markB hmB heq.symm

/-! ### Replacing a block -/

theorem mem_set_of_ne {blocks : List Block} {b : Block} (h : b ∈ blocks.set index block) :
    b = block ∨ ∃ j, j ≠ index ∧ blocks[j]? = some b := by
  obtain ⟨j, hj⟩ := List.mem_iff_getElem?.mp h
  rw [List.getElem?_set] at hj
  split at hj
  · split at hj
    · exact Or.inl (Option.some.inj hj).symm
    · cases hj
  · rename_i hne
    exact Or.inr ⟨j, fun heq => hne heq.symm, hj⟩

/-- Replacing a block keeps a list apart if the new one is apart from all the others. -/
theorem marksApart_set {blocks : List Block} (h : blocks.Pairwise MarksApart)
    (apart : ∀ j b, j ≠ index → blocks[j]? = some b → MarksApart b block) :
    (blocks.set index block).Pairwise MarksApart := by
  rw [List.pairwise_iff_getElem] at h ⊢
  intro i j hi hj hij
  rw [List.length_set] at hi hj
  rw [List.getElem_set, List.getElem_set]
  split
  · rw [if_neg (by omega)]
    exact (apart j _ (by omega) (List.getElem?_eq_getElem hj)).symm
  · split
    · exact apart i _ (by omega) (List.getElem?_eq_getElem hi)
    · exact h i j hi hj hij

/-- A draft stays valid when a block is replaced by one of the same reference and alignment whose
body is valid and whose marks are new. -/
theorem Valid.replace (h : d.Valid) {block' : Block} (found : d.blocks[index]? = some block)
    (blocks : d'.blocks = d.blocks.set index block')
    (reference : block'.reference = block.reference)
    (alignment : block'.alignment = block.alignment)
    (buffer : d.buffer.length ≤ d'.buffer.length) (units : d'.units = d.units)
    (supply : d'.supply = d.supply) (unit : d'.currentUnit = d.currentUnit)
    (valid : ∀ body ∈ block'.body, d'.BodyValid body)
    (unnamed : ∀ body ∈ block'.body, ∀ mark ∈ body.marks,
      ∀ other ∈ d.blocks, other.reference ≠ mark.reference)
    (apart : ∀ j b, j ≠ index → d.blocks[j]? = some b → MarksApart b block')
    (cursor : ∀ index block body, d'.active? = some (index, block, body) →
      body.start + body.size = d'.buffer.length ∧ d'.currentUnit = some body.unit) :
    d'.Valid := by
  have hblock : block ∈ d.blocks := List.mem_of_getElem? found
  have hmem : ∀ b ∈ d'.blocks, b = block' ∨ b ∈ d.blocks := by
    intro b hb
    rw [blocks] at hb
    rcases mem_set_of_ne hb with rfl | ⟨j, -, hj⟩
    · exact Or.inl rfl
    · exact Or.inr (List.mem_of_getElem? hj)
  -- The references are those of before, each at its place.
  have hreferences : d'.blocks.map (·.reference) = d.blocks.map (·.reference) := by
    rw [blocks, List.map_set, reference]
    apply List.ext_getElem?
    intro i
    rw [List.getElem?_set]
    split
    · rename_i heq
      subst heq
      rw [List.getElem?_map, found, if_pos (by
        rw [List.length_map]
        exact (List.getElem?_eq_some_iff.mp found).1)]
      rfl
    · rfl
  have hnamed : ∀ b ∈ d'.blocks, ∃ other ∈ d.blocks, other.reference = b.reference := by
    intro b hb
    have hin : b.reference ∈ d.blocks.map (·.reference) :=
      hreferences ▸ List.mem_map_of_mem hb
    exact List.mem_map.mp hin
  exact
    { referencesOnce := hreferences ▸ h.referencesOnce
      referencesKnown := by
        intro b hb
        obtain ⟨other, hother, heq⟩ := hnamed b hb
        rw [← heq, supply]
        exact h.referencesKnown other hother
      powers := by
        intro b hb
        rcases hmem b hb with rfl | hb
        · exact alignment ▸ h.powers block hblock
        · exact h.powers b hb
      alignmentsFit := by
        intro b hb
        rcases hmem b hb with rfl | hb
        · exact alignment ▸ h.alignmentsFit block hblock
        · exact h.alignmentsFit b hb
      bodies := by
        intro b hb body hbody
        rcases hmem b hb with rfl | hb
        · exact valid body hbody
        · exact (h.bodies b hb body hbody).mono buffer (Nat.le_of_eq (congrArg _ units.symm))
            (Nat.le_of_eq (congrArg _ supply.symm))
      marksUnnamed := by
        intro b hb body hbody mark hmark other hother
        obtain ⟨other', hother', heq⟩ := hnamed other hother
        rw [← heq]
        rcases hmem b hb with rfl | hb
        · exact unnamed body hbody mark hmark other' hother'
        · exact h.marksUnnamed b hb body hbody mark hmark other' hother'
      marksApart := blocks ▸ marksApart_set h.marksApart apart
      unitRegistered := unit ▸ units ▸ h.unitRegistered
      cursor := cursor }

/-! ### Moves -/

theorem blank_valid (platform : Platform) (encoding : PointerEncoding) (supply : Supply) :
    (blank platform encoding supply).Valid where
  referencesOnce := List.nodup_nil
  referencesKnown := by
    intro block hblock
    cases hblock
  powers := by
    intro block hblock
    cases hblock
  alignmentsFit := by
    intro block hblock
    cases hblock
  bodies := by
    intro block hblock
    cases hblock
  marksUnnamed := by
    intro block hblock
    cases hblock
  marksApart := List.Pairwise.nil
  unitRegistered := by
    intro unit hunit
    cases hunit
  cursor := by
    intro index block body h
    cases h

/-- Changing the body of the open block replaces that block. -/
theorem setBody_blocks (h : d.active? = some (index, block, body)) (body' : Body) :
    (d.setBody index body').blocks = d.blocks.set index { block with body := some body' } := by
  have hfound := (active?_eq_some.mp h).2.1
  apply List.ext_getElem?
  intro i
  show (d.blocks.modify index _)[i]? = _
  rw [List.getElem?_modify, List.getElem?_set]
  split
  · rename_i heq
    subst heq
    rw [hfound, if_pos (List.getElem?_eq_some_iff.mp hfound).1]
    rfl
  · exact id_map _

/-- What the body of the open block may become: it stays at its place and in its unit, ends where
the buffer will end, and marks nothing that has a meaning already. -/
structure BodyChange (d d' : Draft) (index : Nat) (body body' : Body) : Prop where
  start : body'.start = body.start
  unit : body'.unit = body.unit
  cursor : body'.start + body'.size = d'.buffer.length
  valid : d'.BodyValid body'
  unnamed : ∀ mark ∈ body'.marks, mark ∈ body.marks ∨
    ∀ other ∈ d.blocks, other.reference ≠ mark.reference
  unmarked : ∀ mark ∈ body'.marks, mark ∈ body.marks ∨ d.isMarked body.unit mark.reference = false

/-- A draft stays valid when the body of its open block changes as it may. -/
theorem Valid.changeBody (h : d.Valid) {body' : Body}
    (active : d.active? = some (index, block, body))
    (blocks : d'.blocks = (d.setBody index body').blocks)
    (current : d'.currentBlock = d.currentBlock) (unit : d'.currentUnit = d.currentUnit)
    (units : d'.units = d.units) (supply : d'.supply = d.supply)
    (buffer : d.buffer.length ≤ d'.buffer.length) (change : BodyChange d d' index body body') :
    d'.Valid := by
  obtain ⟨hcurrent, hfound, hbody⟩ := active?_eq_some.mp active
  have hblock : block ∈ d.blocks := List.mem_of_getElem? hfound
  rw [setBody_blocks active] at blocks
  -- Only the open block has another body; its marks are to be told from those of the other blocks.
  refine h.replace hfound blocks rfl rfl buffer units supply unit ?_ ?_ ?_ ?_
  · rintro _ ⟨⟩
    exact change.valid
  · rintro _ ⟨⟩ mark hmark other hother
    rcases change.unnamed mark hmark with hold | hnew
    · exact h.marksUnnamed block hblock body hbody mark hold other hother
    · exact hnew other hother
  · rintro j b hne hj bodyB hB _ ⟨⟩ hunit markB hmB mark hmark heq
    have hunit' : bodyB.unit = body.unit := hunit.trans change.unit
    rcases change.unmarked mark hmark with hold | hnew
    · -- Two old marks of two blocks.
      have hapart : MarksApart b block := by
        have hpair := List.pairwise_iff_getElem.mp h.marksApart
        obtain ⟨hj', rfl⟩ := List.getElem?_eq_some_iff.mp hj
        obtain ⟨hi', rfl⟩ := List.getElem?_eq_some_iff.mp hfound
        rcases Nat.lt_or_gt_of_ne hne with hlt | hgt
        · exact hpair j index hj' hi' hlt
        · exact (hpair index j hi' hj' hgt).symm
      exact hapart bodyB hB body hbody hunit' markB hmB mark hold heq
    · -- The new mark would have been found in the other block.
      have hno := List.any_eq_false.mp hnew b (List.mem_of_getElem? hj)
      rw [Option.mem_def.mp hB] at hno
      simp only [Bool.and_eq_true, decide_eq_true_eq, List.any_eq_true, not_and, not_exists] at hno
      exact hno hunit' markB hmB heq
  · intro i b c hactive
    obtain ⟨hi, hb, hc⟩ := active?_eq_some.mp hactive
    rw [current, hcurrent] at hi
    cases hi
    rw [blocks, List.getElem?_set, if_pos rfl,
      if_pos (List.getElem?_eq_some_iff.mp hfound).1] at hb
    cases hb
    cases hc
    refine ⟨change.cursor, ?_⟩
    rw [unit, change.unit]
    exact (h.cursor index block body active).2

/-- A new block has a reference that nothing bears. -/
theorem Valid.newBlock (h : d.Valid) {alignment : Nat} (limit : Option Nat)
    (power : isPowerOfTwo alignment = true) (word : alignment < wordLimit) :
    Valid { d with
      supply := ⟨d.supply.next + 1⟩
      blocks := d.blocks ++ [⟨⟨d.supply.next⟩, alignment, limit, none⟩] } where
  referencesOnce := by
    rw [List.map_append, List.nodup_append]
    refine ⟨h.referencesOnce, List.pairwise_singleton _ _, ?_⟩
    rintro _ hold _ hnew rfl
    obtain ⟨b, hb, hb'⟩ := List.mem_map.mp hold
    have hlt := h.referencesKnown b hb
    rw [hb', List.mem_singleton.mp hnew] at hlt
    exact Nat.lt_irrefl _ hlt
  referencesKnown := by
    intro b hb
    rcases List.mem_append.mp hb with hb | hb
    · exact Nat.lt_succ_of_lt (h.referencesKnown b hb)
    · rw [List.mem_singleton.mp hb]
      exact Nat.lt_succ_self _
  powers := by
    intro b hb
    rcases List.mem_append.mp hb with hb | hb
    · exact h.powers b hb
    · rw [List.mem_singleton.mp hb]
      exact power
  alignmentsFit := by
    intro b hb
    rcases List.mem_append.mp hb with hb | hb
    · exact h.alignmentsFit b hb
    · rw [List.mem_singleton.mp hb]
      exact word
  -- The new block has no body, so nothing is to be said of sites and marks in it.
  bodies := by
    intro b hb body hbody
    rcases List.mem_append.mp hb with hb | hb
    · exact (h.bodies b hb body hbody).mono (Nat.le_refl _) (Nat.le_refl _) (Nat.le_succ _)
    · rw [List.mem_singleton.mp hb] at hbody
      cases hbody
  marksUnnamed := by
    intro b hb body hbody mark hmark other hother
    rcases List.mem_append.mp hb with hb | hb
    · rcases List.mem_append.mp hother with hother | hother
      · exact h.marksUnnamed b hb body hbody mark hmark other hother
      · intro heq
        have hlt := (h.bodies b hb body hbody).marksKnown mark hmark
        rw [← heq, List.mem_singleton.mp hother] at hlt
        exact Nat.lt_irrefl _ hlt
    · rw [List.mem_singleton.mp hb] at hbody
      cases hbody
  marksApart := by
    refine List.pairwise_append.mpr ⟨h.marksApart, List.pairwise_singleton _ _, ?_⟩
    rintro a - b hb bodyA - bodyB hB
    rw [List.mem_singleton.mp hb] at hB
    cases hB
  unitRegistered := h.unitRegistered
  cursor := by
    intro index block body hactive
    obtain ⟨hcurrent, hfound, hbody⟩ := active?_eq_some.mp hactive
    refine h.cursor index block body (active?_eq_some.mpr ⟨hcurrent, ?_, hbody⟩)
    rw [List.getElem?_append] at hfound
    split at hfound
    · exact hfound
    · have hmem := List.mem_of_getElem? hfound
      rw [List.mem_singleton.mp hmem] at hbody
      cases hbody

/-- Opening a block gives it an empty body at the end of the buffer. -/
theorem Valid.openBlock (h : d.Valid) {unit : Nat} (opened : d.currentUnit = some unit)
    (found : d.blocks[index]? = some block) :
    Valid { d with
      blocks := d.blocks.set index
        { block with body := some ⟨unit, d.buffer.length, 0, [], []⟩ }
      currentBlock := some index } := by
  refine h.replace found rfl rfl rfl (Nat.le_refl _) rfl rfl rfl ?_ ?_ ?_ ?_
  · rintro _ ⟨⟩
    exact
      { inside := Nat.le_refl _
        registered := h.unitRegistered unit opened
        slots := List.Pairwise.nil
        slotsInside := fun site hsite => absurd hsite List.not_mem_nil
        targetsKnown := fun site hsite => absurd hsite List.not_mem_nil
        marksInside := fun mark hmark => absurd hmark List.not_mem_nil
        marksKnown := fun mark hmark => absurd hmark List.not_mem_nil
        marksOnce := List.nodup_nil }
  · rintro _ ⟨⟩ mark hmark
    cases hmark
  · rintro j b - - bodyB - _ ⟨⟩ - markB - mark hmark
    cases hmark
  · intro i b c hactive
    obtain ⟨hi, hb, hc⟩ := active?_eq_some.mp hactive
    cases hi
    rw [List.getElem?_set, if_pos rfl, if_pos (List.getElem?_eq_some_iff.mp found).1] at hb
    cases hb
    cases hc
    exact ⟨rfl, opened⟩

/-- Without an open block nothing is said about the cursor. -/
theorem active?_of_no_current (h : d.currentBlock = none) : d.active? = none := by
  rw [active?, h]
  rfl

/-- Content that is written at the cursor keeps a draft valid. -/
theorem Valid.append (h : d.Valid) {index : Nat} {block : Block} {body : Body}
    (active : d.active? = some (index, block, body)) (b : Bytes) : (d.grown index body b).Valid := by
  have hblock := List.mem_of_getElem? (active?_eq_some.mp active).2.1
  have hbody := h.bodies block hblock body (active?_eq_some.mp active).2.2
  have hcursor := (h.cursor index block body active).1
  have hbuffer : d.buffer.length ≤ (d.buffer ++ b).length := by simp
  refine h.changeBody active rfl rfl rfl rfl rfl hbuffer
    { start := rfl
      unit := rfl
      cursor := ?_
      valid := ?_
      unnamed := fun mark hmark => Or.inl hmark
      unmarked := fun mark hmark => Or.inl hmark }
  · show body.start + (body.size + b.length) = (d.buffer ++ b).length
    rw [List.length_append]
    omega
  · have hgrown : (d.grown index body b).BodyValid body :=
      hbody.mono hbuffer (Nat.le_refl _) (Nat.le_refl _)
    exact
      { hgrown with
        inside := by
          show body.start + (body.size + b.length) ≤ (d.buffer ++ b).length
          rw [List.length_append]
          omega
        slotsInside := fun site hsite =>
          Nat.le_trans (hbody.slotsInside site hsite) (Nat.le_add_right _ _)
        marksInside := fun mark hmark =>
          Nat.le_trans (hbody.marksInside mark hmark) (Nat.le_add_right _ _) }

/-- A site at the cursor keeps a draft valid. -/
theorem Valid.site (h : d.Valid) {index : Nat} {block : Block} {body : Body} {reference : Reference}
    (encoding : PointerEncoding) (active : d.active? = some (index, block, body))
    (known : reference.id < d.supply.next) :
    (d.grown index { body with sites := body.sites ++ [⟨body.size, reference, encoding⟩] }
      (d.placeholder reference)).Valid := by
  have hblock := List.mem_of_getElem? (active?_eq_some.mp active).2.1
  have hbody := h.bodies block hblock body (active?_eq_some.mp active).2.2
  have hcursor := (h.cursor index block body active).1
  have hslot : (d.placeholder reference).length = Pointer.slotSize := Scalar.length_encode ..
  have hbuffer : d.buffer.length ≤ (d.buffer ++ d.placeholder reference).length := by simp
  -- What is true of the sites so far is told apart from what the new one needs.
  have hsites : ∀ site ∈ body.sites ++ [(⟨body.size, reference, encoding⟩ : Site)],
      site ∈ body.sites ∨ site = ⟨body.size, reference, encoding⟩ := by
    intro site hsite
    rcases List.mem_append.mp hsite with hsite | hsite
    · exact Or.inl hsite
    · exact Or.inr (List.mem_singleton.mp hsite)
  refine h.changeBody active rfl rfl rfl rfl rfl hbuffer
    { start := rfl
      unit := rfl
      cursor := ?_
      valid := ?_
      unnamed := fun mark hmark => Or.inl hmark
      unmarked := fun mark hmark => Or.inl hmark }
  · show body.start + (body.size + (d.placeholder reference).length)
      = (d.buffer ++ d.placeholder reference).length
    rw [List.length_append]
    omega
  · exact
      { inside := by
          show body.start + (body.size + (d.placeholder reference).length)
            ≤ (d.buffer ++ d.placeholder reference).length
          rw [List.length_append]
          omega
        registered := hbody.registered
        slots := by
          refine List.pairwise_append.mpr ⟨hbody.slots, List.pairwise_singleton _ _, ?_⟩
          intro a ha b hb
          rw [List.mem_singleton.mp hb]
          exact hbody.slotsInside a ha
        slotsInside := by
          intro site hsite
          show site.offset + Pointer.slotSize ≤ body.size + (d.placeholder reference).length
          rcases hsites site hsite with hold | rfl
          · exact Nat.le_trans (hbody.slotsInside site hold) (Nat.le_add_right _ _)
          · exact Nat.le_of_eq (congrArg _ hslot.symm)
        targetsKnown := by
          intro site hsite
          rcases hsites site hsite with hold | rfl
          · exact hbody.targetsKnown site hold
          · exact known
        marksInside := fun mark hmark =>
          Nat.le_trans (hbody.marksInside mark hmark) (Nat.le_add_right _ _)
        marksKnown := hbody.marksKnown
        marksOnce := hbody.marksOnce }

/-- A mark at the cursor by a reference that has no place yet keeps a draft valid. -/
theorem Valid.mark (h : d.Valid) {index unit : Nat} {block : Block} {body : Body} {reference : Reference}
    (active : d.active? = some (index, block, body)) (opened : d.currentUnit = some unit)
    (unnamed : d.blockIndex? reference = none) (unmarked : d.isMarked unit reference = false)
    (known : reference.id < d.supply.next) :
    (d.setBody index { body with marks := body.marks ++ [⟨reference, body.size⟩] }).Valid := by
  have hblock := List.mem_of_getElem? (active?_eq_some.mp active).2.1
  have hsome := (active?_eq_some.mp active).2.2
  have hbody := h.bodies block hblock body hsome
  have hcursor := h.cursor index block body active
  have hunit : unit = body.unit := Option.some.inj (opened.symm.trans hcursor.2)
  have hmarks : ∀ mark ∈ body.marks ++ [(⟨reference, body.size⟩ : Mark)],
      mark ∈ body.marks ∨ mark = ⟨reference, body.size⟩ := by
    intro mark hmark
    rcases List.mem_append.mp hmark with hmark | hmark
    · exact Or.inl hmark
    · exact Or.inr (List.mem_singleton.mp hmark)
  subst hunit
  refine h.changeBody active rfl rfl rfl rfl rfl (Nat.le_refl _)
    { start := rfl
      unit := rfl
      cursor := hcursor.1
      valid := ?_
      unnamed := ?_
      unmarked := ?_ }
  · exact
      { inside := hbody.inside
        registered := hbody.registered
        slots := hbody.slots
        slotsInside := hbody.slotsInside
        targetsKnown := hbody.targetsKnown
        marksInside := by
          intro mark hmark
          rcases hmarks mark hmark with hold | rfl
          · exact hbody.marksInside mark hold
          · exact Nat.le_refl _
        marksKnown := by
          intro mark hmark
          rcases hmarks mark hmark with hold | rfl
          · exact hbody.marksKnown mark hold
          · exact known
        marksOnce := by
          rw [List.map_append, List.nodup_append]
          refine ⟨hbody.marksOnce, List.pairwise_singleton _ _, ?_⟩
          rintro _ hold _ hnew rfl
          obtain ⟨m, hm, hm'⟩ := List.mem_map.mp hold
          -- A mark of the open block counts as a mark of the data unit.
          have hno := List.any_eq_false.mp unmarked block hblock
          rw [hsome] at hno
          simp only [decide_true, Bool.true_and, List.any_eq_true, not_exists, not_and,
            decide_eq_true_eq] at hno
          exact hno m hm (hm'.trans (List.mem_singleton.mp hnew)) }
  · intro mark hmark
    rcases hmarks mark hmark with hold | rfl
    · exact Or.inl hold
    · refine Or.inr fun other hother heq => ?_
      have hno := List.findIdx?_eq_none_iff.mp unnamed other hother
      simp only [heq, decide_true, reduceCtorEq] at hno
  · intro mark hmark
    rcases hmarks mark hmark with hold | rfl
    · exact Or.inl hold
    · exact Or.inr unmarked

/-- Every move keeps a draft valid. -/
theorem Valid.move (h : d.Valid) (hmove : Move allowed d d') : d'.Valid := by
  -- The moves that do not touch blocks only extend the supply, the units or the buffer.
  cases hmove with
  | takeReference =>
    exact h.mono rfl (Nat.le_refl _) (Nat.le_refl _) (Nat.le_succ _) h.unitRegistered h.cursor
  | registerUnit signature fresh =>
    have hunits : d.units.length ≤ (d.units ++ [(⟨signature, none⟩ : DraftUnit)]).length := by
      rw [List.length_append]
      exact Nat.le_add_right _ _
    exact h.mono rfl (Nat.le_refl _) hunits (Nat.le_refl _)
      (fun unit hunit => Nat.lt_of_lt_of_le (h.unitRegistered unit hunit) hunits) h.cursor
  | openUnit i closed known =>
    refine h.mono rfl (Nat.le_refl _) (Nat.le_refl _) (Nat.le_refl _) ?_ ?_
    · rintro _ ⟨⟩
      exact known
    · -- A block is only open while a data unit is.
      intro index block body hactive
      have hunit := (h.cursor index block body hactive).2
      rw [closed] at hunit
      cases hunit
  | closeUnit closed =>
    refine h.mono rfl (Nat.le_refl _) (Nat.le_refl _) (Nat.le_refl _) ?_ ?_
    · intro unit hunit
      cases hunit
    · intro index block body hactive
      rw [show d.active? = some (index, block, body) from hactive] at closed
      cases closed
  | setRoot unit reference opened known =>
    have hunits : (d.units.modify unit ({ · with root := some reference })).length
        = d.units.length := List.length_modify ..
    refine h.mono rfl (Nat.le_refl _) (Nat.le_of_eq hunits.symm) (Nat.le_refl _) ?_ h.cursor
    intro u hu
    exact hunits.symm ▸ h.unitRegistered u hu
  | setEncoding encoding mode =>
    exact h.mono rfl (Nat.le_refl _) (Nat.le_refl _) (Nat.le_refl _) h.unitRegistered h.cursor
  | newBlock alignment limit power word => exact h.newBlock limit power word
  | openBlock index unit block closed opened found fresh => exact h.openBlock opened found
  | closeBlock index padded block body active rounded =>
    have hbuffer : d.buffer.length ≤ (d.buffer.padTo (body.start + padded)).length := by
      rw [Bytes.length_padTo]
      exact Nat.le_max_left _ _
    refine h.mono rfl hbuffer (Nat.le_refl _) (Nat.le_refl _) h.unitRegistered ?_
    intro i b c hactive
    rw [active?_of_no_current rfl] at hactive
    cases hactive
  | append index block body b active fits => exact h.append active b
  | site index block body reference encoding active fits aligned known mode =>
    exact h.site encoding active known
  | mark index unit block body reference active opened unnamed unmarked known =>
    exact h.mark active opened unnamed unmarked known

theorem Valid.moves (h : d.Valid) (hmoves : Moves allowed d d') : d'.Valid := by
  induction hmoves with
  | refl => exact h
  | tail _ hmove ih => exact ih.move hmove

/-- Every draft that comes about by operations is valid. -/
theorem Reachable.valid (h : d.Reachable) : d.Valid := by
  obtain ⟨platform, encoding, supply, ops, hrun⟩ := h
  exact (blank_valid platform encoding supply).moves hrun.moves

end ObjectPack.Draft
