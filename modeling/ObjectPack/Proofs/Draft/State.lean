import ObjectPack.Proofs.Draft.Placeholder
import ObjectPack.Proofs.Draft.Transcript
import ObjectPack.Proofs.Section.Merge

/-!
# States of drafts

The joint invariant of the states that a script can lead to (`Draft.run_orderly`).  Validity, the numbers
in the slots and the transcript carry most of it; what they do not say is shown here move by move
(`Draft.Tidy`): the index of the open block is that of a block with a body, no content is longer than its
block may be, slots stand at multiples of their size, and no two bodies share a byte of the buffer.

The last of these rests on the open block being the last one: all other bodies end before it begins, so it
can grow at the end of the buffer.
-/

namespace ObjectPack.Draft

open Relation

variable {d d' : Draft} {index : Nat} {block : Block} {body : Body} {allowed : PointerEncoding → Prop}

/-! ### What a move does to a body -/

/-- How a body that a draft has after a move came about. -/
inductive BodyOrigin (d d' : Draft) (index : Nat) (block : Block) (body : Body) : Prop
  /-- The body was there before. -/
  | kept (before : Block) (found : d.blocks[index]? = some before) (filled : before.body = some body)
      (limit : block.limit = before.limit)
  /-- The block has been opened. -/
  | opened (closed : d.active? = none) (current : d'.currentBlock = some index)
      (start : body.start = d.buffer.length) (size : body.size = 0) (sites : body.sites = [])
  /-- Something has been put into the open block. -/
  | grown (before : Block) (less : Body) (active : d.active? = some (index, before, less))
      (limit : block.limit = before.limit) (start : body.start = less.start)
      (fits : ∀ limit ∈ before.limit, less.size ≤ limit → body.size ≤ limit)
      (sites : ∀ site ∈ body.sites, site ∈ less.sites ∨ site.offset % Pointer.slotSize = 0)

theorem BodyOrigin.of_blocks (blocks : d'.blocks = d.blocks) (found : d'.blocks[index]? = some block)
    (filled : block.body = some body) : BodyOrigin d d' index block body :=
  .kept block (blocks ▸ found) filled rfl

/-- A change of the body of the open block leaves the other bodies as they are. -/
theorem BodyOrigin.of_setBody {i : Nat} {opened : Block} {less more : Body}
    (active : d.active? = some (i, opened, less)) (blocks : d'.blocks = (d.setBody i more).blocks)
    (start : more.start = less.start)
    (fits : ∀ limit ∈ opened.limit, less.size ≤ limit → more.size ≤ limit)
    (sites : ∀ site ∈ more.sites, site ∈ less.sites ∨ site.offset % Pointer.slotSize = 0)
    (found : d'.blocks[index]? = some block) (filled : block.body = some body) :
    BodyOrigin d d' index block body := by
  rw [blocks, setBody_blocks active, List.getElem?_set] at found
  split at found
  · rename_i heq
    subst heq
    rw [if_pos (List.getElem?_eq_some_iff.mp (active?_eq_some.mp active).2.1).1] at found
    cases found
    cases filled
    exact .grown opened less active rfl start fits sites
  · exact .kept block found filled rfl

theorem Move.bodyOrigin (h : Move allowed d d') (found : d'.blocks[index]? = some block)
    (filled : block.body = some body) : BodyOrigin d d' index block body := by
  -- Most moves leave the blocks as they are; the others change the open block or add one.
  cases h with
  | takeReference => exact .of_blocks rfl found filled
  | registerUnit => exact .of_blocks rfl found filled
  | openUnit => exact .of_blocks rfl found filled
  | closeUnit => exact .of_blocks rfl found filled
  | setRoot => exact .of_blocks rfl found filled
  | setEncoding => exact .of_blocks rfl found filled
  | closeBlock => exact .of_blocks rfl found filled
  | newBlock alignment limit power word =>
    rw [List.getElem?_append] at found
    split at found
    · exact .kept block found filled rfl
    · obtain rfl := List.mem_singleton.mp (List.mem_of_getElem? found)
      cases filled
  | openBlock i unit opening closed opened found' fresh =>
    rw [List.getElem?_set] at found
    split at found
    · rename_i heq
      subst heq
      rw [if_pos (List.getElem?_eq_some_iff.mp found').1] at found
      cases found
      cases filled
      exact .opened closed rfl rfl rfl rfl
    · exact .kept block found filled rfl
  | append i opened less b active fits =>
    exact .of_setBody active rfl rfl (fun limit hlimit _ => fits limit hlimit) (fun _ h => Or.inl h)
      found filled
  | site i opened less reference encoding active fits aligned known mode =>
    refine .of_setBody active rfl rfl (fun limit hlimit _ => ?_) (fun site hsite => ?_) found filled
    · have hslot : (d.placeholder reference).length = Pointer.slotSize := Scalar.length_encode ..
      exact hslot ▸ fits limit hlimit
    · rcases List.mem_append.mp hsite with hold | hnew
      · exact Or.inl hold
      · exact Or.inr (List.mem_singleton.mp hnew ▸ aligned)
  | mark i unit opened less reference active openedUnit unnamed unmarked known =>
    exact .of_setBody active rfl rfl (fun _ _ h => h) (fun _ h => Or.inl h) found filled

/-! ### Tidy drafts -/

/-- The body of a block, if it has one. -/
def HasBodyAt (d : Draft) (index : Nat) (body : Body) : Prop :=
  ∃ block, d.blocks[index]? = some block ∧ block.body = some body

/-- What holds of every draft beside its validity. -/
structure Tidy (d : Draft) : Prop where
  /-- The open block has been opened. -/
  current : ∀ index ∈ d.currentBlock, ∃ body, d.HasBodyAt index body
  limits : ∀ (index : Nat) (block : Block) (body : Body), d.blocks[index]? = some block →
    block.body = some body → ∀ limit ∈ block.limit, body.size ≤ limit
  aligned : ∀ index body, d.HasBodyAt index body →
    ∀ site ∈ body.sites, site.offset % Pointer.slotSize = 0
  apart : ∀ i j a b, i ≠ j → d.HasBodyAt i a → d.HasBodyAt j b →
    a.start + a.size ≤ b.start ∨ b.start + b.size ≤ a.start
  /-- The open block is the last one in the buffer. -/
  last : ∀ i j a b, i ≠ j → d.HasBodyAt i a → d.HasBodyAt j b → d.currentBlock = some j →
    a.start + a.size ≤ b.start

theorem blank_tidy (platform : Platform) (encoding : PointerEncoding) (supply : Supply) :
    (blank platform encoding supply).Tidy where
  current _ h := by cases h
  limits _ _ _ h := by cases h
  aligned _ _ := by
    rintro ⟨_, h, -⟩
    cases h
  apart _ _ _ _ _ := by
    rintro ⟨_, h, -⟩
    cases h
  last _ _ _ _ _ := by
    rintro ⟨_, h, -⟩
    cases h

theorem HasBodyAt.inside (h : d.HasBodyAt index body) (valid : d.Valid) :
    body.start + body.size ≤ d.buffer.length := by
  obtain ⟨block, hfound, hbody⟩ := h
  exact (valid.bodies block (List.mem_of_getElem? hfound) body hbody).inside

theorem HasBodyAt.eq {body' : Body} (h : d.HasBodyAt index body) (h' : d.HasBodyAt index body') :
    body' = body := by
  obtain ⟨block, hfound, hbody⟩ := h
  obtain ⟨block', hfound', hbody'⟩ := h'
  obtain rfl := Option.some.inj (hfound.symm.trans hfound')
  exact Option.some.inj (hbody'.symm.trans hbody)

/-- A block that is open after a move was open before, or the move has opened it. -/
theorem Move.current_origin (h : Move allowed d d') (current : d'.currentBlock = some index) :
    d.currentBlock = some index ∨
      d.active? = none ∧ ∃ body, d'.HasBodyAt index body ∧ body.start = d.buffer.length := by
  cases h with
  | openBlock i unit opening closed opened found fresh =>
    cases current
    refine Or.inr ⟨closed, _, ⟨_, List.getElem?_set_self ?_, rfl⟩, rfl⟩
    exact (List.getElem?_eq_some_iff.mp found).1
  | closeBlock => cases current
  | _ => exact Or.inl current

theorem Tidy.active (tidy : d.Tidy) (current : d.currentBlock = some index) :
    ∃ block body, d.active? = some (index, block, body) := by
  obtain ⟨body, block, hfound, hbody⟩ := tidy.current index current
  exact ⟨block, body, active?_eq_some.mpr ⟨current, hfound, hbody⟩⟩

theorem hasBodyAt_of_active (h : d.active? = some (index, block, body)) : d.HasBodyAt index body :=
  ⟨block, (active?_eq_some.mp h).2⟩

/-- Of two bodies the one that has been there ends before the other one begins. -/
theorem Tidy.kept_before (tidy : d.Tidy) (valid : d.Valid) {i : Nat} {a : Body} (ne : i ≠ index)
    (kept : d.HasBodyAt i a) (origin : BodyOrigin d d' index block body) :
    d.HasBodyAt index body ∨ a.start + a.size ≤ body.start := by
  cases origin with
  | kept before found filled limit => exact Or.inl ⟨before, found, filled⟩
  | opened closed current start size sites => exact Or.inr (start ▸ kept.inside valid)
  | grown before less active limit start =>
    have hcurrent := (active?_eq_some.mp active).1
    exact Or.inr (start ▸ tidy.last i index a less ne kept (hasBodyAt_of_active active) hcurrent)

/-- Only one body is not as it was. -/
theorem BodyOrigin.kept_or {i : Nat} {a : Body} {first : Block} (origin : BodyOrigin d d' index block body)
    (first_origin : BodyOrigin d d' i first a) (ne : i ≠ index) :
    d.HasBodyAt i a ∨ d.HasBodyAt index body := by
  cases origin with
  | kept before found filled limit => exact Or.inr ⟨before, found, filled⟩
  | opened closed current start size sites =>
    cases first_origin with
    | kept before found filled limit => exact Or.inl ⟨before, found, filled⟩
    | opened closed' current' => exact absurd (Option.some.inj (current'.symm.trans current)) ne
    | grown before less active => simp [closed] at active
  | grown before less active limit start fits sites =>
    cases first_origin with
    | kept before found filled limit => exact Or.inl ⟨before, found, filled⟩
    | opened closed => simp [closed] at active
    | grown before' less' active' =>
      rw [active] at active'
      cases active'
      exact absurd rfl ne

/-- Moves keep a draft tidy. -/
theorem Tidy.move (tidy : d.Tidy) (valid : d.Valid) (h : Move allowed d d') : d'.Tidy where
  current index hcurrent := by
    rcases h.current_origin hcurrent with hold | ⟨-, body, hbody, -⟩
    · obtain ⟨body, block, hfound, hbody⟩ := tidy.current index hold
      obtain ⟨block', body', hfound', -, hbody', -⟩ := h.extends.blocks index block body hfound hbody
      exact ⟨body', block', hfound', hbody'⟩
    · exact ⟨body, hbody⟩
  limits index block body hfound hbody limit hlimit := by
    cases h.bodyOrigin hfound hbody with
    | kept before found filled same => exact tidy.limits index before body found filled limit (same ▸ hlimit)
    | opened closed current start size sites => exact size ▸ Nat.zero_le limit
    | grown before less active same start fits sites =>
      obtain ⟨-, found, filled⟩ := active?_eq_some.mp active
      rw [same] at hlimit
      exact fits limit hlimit (tidy.limits index before less found filled limit hlimit)
  aligned index body := by
    rintro ⟨block, hfound, hbody⟩ site hsite
    cases h.bodyOrigin hfound hbody with
    | kept before found filled same => exact tidy.aligned index body ⟨before, found, filled⟩ site hsite
    | opened closed current start size sites =>
      rw [sites] at hsite
      cases hsite
    | grown before less active same start fits sites =>
      rcases sites site hsite with hold | hnew
      · exact tidy.aligned index less (hasBodyAt_of_active active) site hold
      · exact hnew
  apart i j a b hne := by
    rintro ⟨first, hfirst, ha⟩ ⟨second, hsecond, hb⟩
    have hfirst := h.bodyOrigin hfirst ha
    have hsecond := h.bodyOrigin hsecond hb
    rcases hsecond.kept_or hfirst hne with hkept | hkept
    · rcases tidy.kept_before valid hne hkept hsecond with hkept' | hbefore
      · exact tidy.apart i j a b hne hkept hkept'
      · exact Or.inl hbefore
    · rcases tidy.kept_before valid hne.symm hkept hfirst with hkept' | hbefore
      · exact tidy.apart i j a b hne hkept' hkept
      · exact Or.inr hbefore
  last i j a b hne := by
    rintro ⟨first, hfirst, ha⟩ ⟨second, hsecond, hb⟩ hcurrent
    have horigin := h.current_origin hcurrent
    -- The other block is not open, so its body was there before.
    have hkept : d.HasBodyAt i a := by
      cases h.bodyOrigin hfirst ha with
      | kept before found filled limit => exact ⟨before, found, filled⟩
      | opened closed current => exact absurd (Option.some.inj (current.symm.trans hcurrent)) hne
      | grown before less active =>
        rcases horigin with hold | ⟨hclosed, -⟩
        · have hi := (active?_eq_some.mp active).1
          exact absurd (Option.some.inj (hi.symm.trans hold)) hne
        · simp [hclosed] at active
    rcases horigin with hold | ⟨-, body, hbody, hstart⟩
    · rcases tidy.kept_before valid hne hkept (h.bodyOrigin hsecond hb) with hkept' | hbefore
      · exact tidy.last i j a b hne hkept hkept' hold
      · exact hbefore
    · obtain rfl := hbody.eq ⟨second, hsecond, hb⟩
      exact hstart ▸ hkept.inside valid

theorem Tidy.moves (tidy : d.Tidy) (valid : d.Valid) (h : Moves allowed d d') : d'.Tidy := by
  induction h with
  | refl => exact tidy
  | tail hfirst hmove ih => exact ih.move (valid.moves hfirst) hmove

/-! ### The invariant -/

/-- What holds in every state that a script can lead to; the transcript is that of the script. -/
structure Orderly (t : Transcript) (d : Draft) : Prop where
  /-- A block is open only while its data unit is. -/
  opened : ∀ index ∈ d.currentBlock, ∃ body, d.HasBodyAt index body ∧ d.currentUnit = some body.unit
  /-- A block that has been closed holds what was written between its opening and its closing. -/
  written : ∀ (index : Nat) (block : Block) (body : Body), d.blocks[index]? = some block →
    block.body = some body → d.currentBlock ≠ some index → ∃ chapter ∈ t.closed,
      chapter.block = block.reference ∧ chapter.unit = body.unit ∧
      d.filling body = chapter.filling d.endian
  /-- Every block that the script has closed is there. -/
  closed : ∀ chapter ∈ t.closed, ∃ index block body, d.currentBlock ≠ some index ∧
    chapter.StandsAt d index block body
  /-- What is in a closed block is not changed by anything that is done later. -/
  settled : ∀ ops d', Run d ops d' → ∀ (index : Nat) (block : Block) (body : Body),
    d.blocks[index]? = some block → block.body = some body → d.currentBlock ≠ some index →
      d'.blocks[index]? = some block ∧ d'.currentBlock ≠ some index ∧ d'.filling body = d.filling body
  inside : ∀ index body, d.HasBodyAt index body → (d.filling body).content.length = body.size
  limits : ∀ (index : Nat) (block : Block) (body : Body), d.blocks[index]? = some block →
    block.body = some body → ∀ limit ∈ block.limit, body.size ≤ limit
  apart : ∀ i j a b, i ≠ j → d.HasBodyAt i a → d.HasBodyAt j b →
    a.start + a.size ≤ b.start ∨ b.start + b.size ≤ a.start
  aligned : ∀ index body, d.HasBodyAt index body →
    ∀ site ∈ body.sites, site.offset % Pointer.slotSize = 0
  slotsInside : ∀ index body, d.HasBodyAt index body →
    ∀ site ∈ body.sites, site.offset + Pointer.slotSize ≤ body.size
  slotsApart : ∀ index body, d.HasBodyAt index body →
    body.sites.Pairwise fun a b => a.offset + Pointer.slotSize ≤ b.offset
  /-- A slot holds the number of the reference that is written there. -/
  numbered : ∀ index body, d.HasBodyAt index body → ∀ site ∈ body.sites,
    d.endian.decode (((d.filling body).content.drop site.offset).take Pointer.slotSize) = site.target.id
  marksInside : ∀ index body, d.HasBodyAt index body → ∀ mark ∈ body.marks, mark.offset ≤ body.size
  /-- In a data unit a reference names one block or one marked position at most. -/
  targetsOnce : ∀ unit, ((d.sections unit).flatMap Section.names).Nodup

/-- The slot of a reference is the number of the reference. -/
theorem decode_placeholder (e : Endian) {reference : Reference} (small : reference.id < wordLimit) :
    e.decode (Section.placeholder e reference) = reference.id := by
  have hbits : (Scalar.i64 (Int64.ofNat reference.id)).toBits = reference.id := by
    show (Int64.ofNat reference.id).toUInt64.toNat = reference.id
    have hlt : reference.id < 2 ^ 64 := Nat.lt_trans small (by decide)
    simpa using Nat.mod_eq_of_lt hlt
  unfold Section.placeholder Scalar.encode
  rw [Endian.decode_encode, hbits]
  show reference.id % Nat.pow 256 8 = _
  exact Nat.mod_eq_of_lt (Nat.lt_trans small (by decide))

/-- The index of a block is known from its reference. -/
theorem Valid.index_eq (valid : d.Valid) {i j : Nat} {a b : Block} (ha : d.blocks[i]? = some a)
    (hb : d.blocks[j]? = some b) (h : a.reference = b.reference) : i = j := by
  obtain ⟨hi, rfl⟩ := List.getElem?_eq_some_iff.mp ha
  obtain ⟨hj, rfl⟩ := List.getElem?_eq_some_iff.mp hb
  have hi' : i < (d.blocks.map (·.reference)).length := by rwa [List.length_map]
  have hj' : j < (d.blocks.map (·.reference)).length := by rwa [List.length_map]
  have hsame : (d.blocks.map (·.reference))[i] = (d.blocks.map (·.reference))[j] := by
    rw [List.getElem_map, List.getElem_map, h]
  exact valid.referencesOnce.getElem_inj_iff.mp hsame

/-- Every state that a script leads to is in order, as long as the numbers of references are words. -/
theorem run_orderly {platform : Platform} {encoding : PointerEncoding} {supply : Supply}
    {ops : List Operation} (run : Run (blank platform encoding supply) ops d)
    (small : d.supply.next ≤ wordLimit) : Orderly (.of encoding ops) d := by
  have htells := Transcript.tells_of_run run
  have hblank := blank_valid platform encoding supply
  have hvalid := hblank.moves run.moves
  have htidy := (blank_tidy platform encoding supply).moves hblank run.moves
  have hnumbered := run.moves.numbered hblank (blank_numbered platform encoding supply)
  have hbodies : ∀ {index : Nat} {body : Body}, d.HasBodyAt index body → d.BodyValid body := by
    rintro index body ⟨block, hfound, hbody⟩
    exact hvalid.bodies block (List.mem_of_getElem? hfound) body hbody
  have hlength : ∀ index body, d.HasBodyAt index body → (d.filling body).content.length = body.size := by
    intro index body hbody
    have hinside := hbody.inside hvalid
    show ((d.buffer.drop body.start).take body.size).length = body.size
    rw [List.length_take, List.length_drop]
    omega
  refine
    { opened := fun index hindex => ?_
      written := fun index block body hfound hbody hclosed => ?_
      closed := htells.closed
      settled := fun ops d' run' index block body hfound hbody hclosed => ?_
      inside := hlength
      limits := htidy.limits
      apart := htidy.apart
      aligned := htidy.aligned
      slotsInside := fun index body h => (hbodies h).slotsInside
      slotsApart := fun index body h => (hbodies h).slots
      numbered := ?_
      marksInside := fun index body h => (hbodies h).marksInside
      targetsOnce := fun unit => (hvalid.coherent unit).namesOnce }
  · obtain ⟨block, body, hactive⟩ := htidy.active hindex
    exact ⟨body, hasBodyAt_of_active hactive, (hvalid.cursor index block body hactive).2⟩
  · obtain ⟨chapter, hchapter, hnamed⟩ :=
      htells.complete block (List.mem_of_getElem? hfound) (by rw [hbody]; rfl)
    obtain ⟨body', hbody', hunit, hfilling⟩ :=
      htells.stands_of_mem hvalid hchapter (List.mem_of_getElem? hfound) hnamed
    obtain rfl := Option.some.inj (hbody.symm.trans hbody')
    refine ⟨chapter, ?_, hnamed, hunit.symm, hfilling⟩
    rcases List.mem_append.mp hchapter with hopen | hmem
    · -- The chapter that is not closed is that of the open block.
      obtain ⟨j, other, _, hcurrent, hstands⟩ := htells.opened chapter (Option.mem_toList.mp hopen)
      obtain rfl := hvalid.index_eq hstands.found hfound (hstands.reference.trans hnamed)
      exact absurd hcurrent hclosed
    · exact hmem
  · obtain ⟨hstays, hclosed'⟩ := run'.moves.block_stays hfound (by rw [hbody]; rfl) hclosed
    have hinside := HasBodyAt.inside ⟨block, hfound, hbody⟩ hvalid
    exact ⟨hstays, hclosed', filling_of_prefix run'.moves.extends.buffer hinside⟩
  · rintro index body ⟨block, hfound, hbody⟩ site hsite
    have hblock := List.mem_of_getElem? hfound
    have hslot := hnumbered block hblock body hbody site hsite
    have hwidth : (Section.placeholder d.endian site.target).length = Pointer.slotSize :=
      Section.length_placeholder ..
    have hslice := hslot.slice
    have hfits := (hbodies ⟨block, hfound, hbody⟩).slotsInside site hsite
    have hknown := (hbodies ⟨block, hfound, hbody⟩).targetsKnown site hsite
    have hcut : (((d.filling body).content.drop site.offset).take Pointer.slotSize)
        = Section.placeholder d.endian site.target := by
      rw [← hslice, hwidth, ← List.drop_drop]
      show (((d.buffer.drop body.start).take body.size).drop site.offset).take Pointer.slotSize = _
      rw [List.drop_take, List.take_take, Nat.min_eq_left (by omega)]
    rw [hcut]
    exact decode_placeholder d.endian (Nat.lt_of_lt_of_le hknown small)

/-- The twins while the block that refers to the two others is open: both of them have been closed. -/
theorem run_orderly_twins : ∃ d, (blank .win64 .chained .full).after? (twinOperations.take 16) = some d ∧
    d.currentBlock = some 2 ∧ d.supply.next ≤ wordLimit ∧
    (Transcript.of .chained (twinOperations.take 16)).closed.map (·.block) = [⟨1⟩, ⟨2⟩] ∧
    Orderly (.of .chained (twinOperations.take 16)) d := by
  have hcheck : ((blank .win64 .chained .full).after? (twinOperations.take 16)).any (fun d =>
      d.currentBlock = some 2 && d.supply.next ≤ wordLimit) = true := by decide +kernel
  simp only [Option.any_eq_true, Bool.and_eq_true, decide_eq_true_eq] at hcheck
  obtain ⟨d, hd, hcurrent, hsmall⟩ := hcheck
  exact ⟨d, hd, hcurrent, hsmall, by decide +kernel, run_orderly (run_of_after? hd) hsmall⟩

end ObjectPack.Draft
