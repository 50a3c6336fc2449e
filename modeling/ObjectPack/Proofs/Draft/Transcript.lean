import ObjectPack.Proofs.Draft.Filling
import ObjectPack.Proofs.Draft.Register

/-!
# Transcripts

A transcript tells what a script does, without the buffer: what is registered, which roots are set, and for
every block the data unit that it is opened in and the entries that are written between its opening and its
closing.  The draft of a script holds what the transcript tells (`Draft.Run.tells`): a block holds its
entries, and what is done to other blocks and data units, before, between or afterwards, makes no difference.

So a draft is known from its transcript (`Transcript.Tells.contents`), and with it the sections of its data
units.
-/

namespace ObjectPack

open Outcome

deriving instance DecidableEq for Operation

/-- What a script does to one block from its opening on. -/
structure Chapter where
  block : Reference
  /-- The data unit that was open when the block was opened. -/
  unit : Nat
  entries : List Entry
  deriving DecidableEq, Repr

/-- What the entries of a block put into it. -/
def Chapter.filling (e : Endian) (c : Chapter) : Filling := .of e c.entries

/-- What a script does. -/
structure Transcript where
  /-- The encoding that the draft has at the end. -/
  encoding : PointerEncoding
  /-- What takes references, and registers data units and blocks. -/
  registrations : List Operation
  /-- The roots that are set, the last one first, each with its data unit. -/
  roots : List (Nat × Reference)
  /-- The data unit that is open at the end. -/
  unit : Option Nat
  /-- The block that is open at the end. -/
  opened : Option Chapter
  /-- The blocks that have been closed, in the order in which they have been closed. -/
  closed : List Chapter
  deriving DecidableEq, Repr

namespace Transcript

/-- The transcript of the script that does nothing. -/
def empty (encoding : PointerEncoding) : Transcript := ⟨encoding, [], [], none, none, []⟩

/-- A transcript with an operation behind it. -/
def note (t : Transcript) : Operation → Transcript
  | .setEncoding encoding => { t with encoding := encoding }
  | .openUnit index => { t with unit := some index }
  | .closeUnit => { t with unit := none }
  | .setRoot reference => { t with roots := (t.unit.toList.map (·, reference)) ++ t.roots }
  | .openBlock reference => { t with opened := t.unit.map (⟨reference, ·, []⟩) }
  | .closeBlock => { t with opened := none, closed := t.closed ++ t.opened.toList }
  | .takeReference => { t with registrations := t.registrations ++ [.takeReference] }
  | .registerUnit signature =>
    { t with registrations := t.registrations ++ [.registerUnit signature] }
  | .newBlock alignment limit =>
    { t with registrations := t.registrations ++ [.newBlock alignment limit] }
  | op => { t with opened := t.opened.map fun c => { c with entries := c.entries ++ op.entries t.encoding } }

/-- The transcript of a script. -/
def of (encoding : PointerEncoding) (ops : List Operation) : Transcript := ops.foldl note (empty encoding)

/-- All that is done to blocks. -/
def chapters (t : Transcript) : List Chapter := t.opened.toList ++ t.closed

/-- The data unit of a block and what is put into it, if it is opened. -/
def fillingOf (t : Transcript) (e : Endian) (block : Reference) : Option (Nat × Filling) :=
  (t.chapters.find? (·.block = block)).map fun c => (c.unit, c.filling e)

end Transcript

variable {d d' : Draft} {index : Nat} {block : Block} {body : Body} {chapter : Chapter}
  {t : Transcript} {op : Operation} {allowed : PointerEncoding → Prop}

namespace Draft

/-- What comes behind the content of a body makes no difference. -/
theorem filling_of_prefix (buffer : d.buffer <+: d'.buffer)
    (inside : body.start + body.size ≤ d.buffer.length) : d'.filling body = d.filling body := by
  obtain ⟨rest, hrest⟩ := buffer
  unfold filling
  rw [← hrest, List.drop_append_of_le_length (by omega), List.take_append_of_le_length]
  rw [List.length_drop]
  omega

/-- The draft in which nothing has been opened and no root been set. -/
def bare (d : Draft) : Draft :=
  { blank d.platform default d.supply with
    blocks := d.registered
    units := d.units.map fun u => { u with root := none } }

theorem bare_congr (platform : d'.platform = d.platform) (supply : d'.supply = d.supply)
    (registered : d'.registered = d.registered)
    (units : (d'.units.map fun u => ({ u with root := none } : DraftUnit))
      = d.units.map fun u => { u with root := none }) : d'.bare = d.bare := by
  unfold bare
  rw [platform, supply, registered, units]

end Draft

/-! ### Chapters in drafts -/

/-- Whether a block of a draft is the one that a chapter tells of, and holds what it tells. -/
structure Chapter.StandsAt (chapter : Chapter) (d : Draft) (index : Nat) (block : Block) (body : Body) :
    Prop where
  found : d.blocks[index]? = some block
  filled : block.body = some body
  reference : block.reference = chapter.block
  unit : body.unit = chapter.unit
  filling : d.filling body = chapter.filling d.endian

/-- What a draft holds stays while its blocks stay and its buffer grows. -/
theorem Chapter.StandsAt.mono (h : chapter.StandsAt d index block body) (valid : d.Valid)
    (found : d'.blocks[index]? = some block) (buffer : d.buffer <+: d'.buffer)
    (endian : d'.endian = d.endian) : chapter.StandsAt d' index block body where
  found := found
  filled := h.filled
  reference := h.reference
  unit := h.unit
  filling := by
    have hinside := (valid.bodies block (List.mem_of_getElem? h.found) body h.filled).inside
    rw [Draft.filling_of_prefix buffer hinside, endian, h.filling]

/-- A block that is closed keeps what it holds, whatever is done to the draft. -/
theorem Chapter.StandsAt.moves (h : chapter.StandsAt d index block body) (valid : d.Valid)
    (closed : d.currentBlock ≠ some index) (moves : Draft.Moves allowed d d') :
    chapter.StandsAt d' index block body ∧ d'.currentBlock ≠ some index := by
  obtain ⟨hfound, hclosed⟩ := moves.block_stays h.found (by rw [h.filled]; rfl) closed
  exact ⟨h.mono valid hfound moves.extends.buffer moves.endian_eq, hclosed⟩

theorem Chapter.StandsAt.active (h : chapter.StandsAt d index block body)
    (current : d.currentBlock = some index) : d.active? = some (index, block, body) :=
  Draft.active?_eq_some.mpr ⟨current, h.found, h.filled⟩

/-- What a transcript tells of a draft. -/
structure Transcript.Tells (platform : Platform) (supply : Supply) (t : Transcript) (d : Draft) :
    Prop where
  encoding : d.encoding = t.encoding
  unit : d.currentUnit = t.unit
  bare : (Draft.blank platform default supply).after? t.registrations = some d.bare
  roots : ∀ index unit, d.units[index]? = some unit → unit.root = t.roots.lookup index
  rootsKnown : ∀ root ∈ t.roots, root.1 < d.units.length
  opened : ∀ chapter ∈ t.opened, ∃ index block body, d.currentBlock = some index ∧
    chapter.StandsAt d index block body
  idle : t.opened = none → d.currentBlock = none
  closed : ∀ chapter ∈ t.closed, ∃ index block body, d.currentBlock ≠ some index ∧
    chapter.StandsAt d index block body
  complete : ∀ block ∈ d.blocks, block.body.isSome →
    ∃ chapter ∈ t.chapters, chapter.block = block.reference

namespace Transcript

variable {platform : Platform} {supply : Supply}

theorem blank_tells (platform : Platform) (encoding : PointerEncoding) (supply : Supply) :
    Tells platform supply (empty encoding) (.blank platform encoding supply) where
  encoding := rfl
  unit := rfl
  bare := rfl
  roots _ _ h := by cases h
  rootsKnown _ h := absurd h List.not_mem_nil
  opened _ h := by cases h
  idle _ := rfl
  closed _ h := absurd h List.not_mem_nil
  complete _ h := absurd h List.not_mem_nil

/-! ### Steps -/

/-- What is done elsewhere leaves closed blocks as they are. -/
theorem Tells.closed_moves (h : t.Tells platform supply d) (valid : d.Valid)
    (moves : Draft.Moves allowed d d') : ∀ chapter ∈ t.closed, ∃ index block body,
      d'.currentBlock ≠ some index ∧ chapter.StandsAt d' index block body := by
  intro chapter hchapter
  obtain ⟨index, block, body, hclosed, hstands⟩ := h.closed chapter hchapter
  obtain ⟨hstands', hclosed'⟩ := hstands.moves valid hclosed moves
  exact ⟨index, block, body, hclosed', hstands'⟩

/-- What changes no block leaves what is told of blocks. -/
theorem Tells.elsewhere (h : t.Tells platform supply d) (valid : d.Valid)
    (moves : Draft.Moves allowed d d') {t' : Transcript} (opened : t'.opened = t.opened)
    (closed : t'.closed = t.closed)
    (found : ∀ (index : Nat) (block : Block), d.blocks[index]? = some block → d'.blocks[index]? = some block)
    (filled : ∀ block ∈ d'.blocks, block.body.isSome → block ∈ d.blocks)
    (current : d'.currentBlock = d.currentBlock) (encoding : d'.encoding = t'.encoding)
    (unit : d'.currentUnit = t'.unit)
    (bare : (Draft.blank platform default supply).after? t'.registrations = some d'.bare)
    (roots : ∀ index unit, d'.units[index]? = some unit → unit.root = t'.roots.lookup index)
    (rootsKnown : ∀ root ∈ t'.roots, root.1 < d'.units.length) : t'.Tells platform supply d' where
  encoding := encoding
  unit := unit
  bare := bare
  roots := roots
  rootsKnown := rootsKnown
  opened chapter hchapter := by
    obtain ⟨index, block, body, hcurrent, hstands⟩ := h.opened chapter (opened ▸ hchapter)
    exact ⟨index, block, body, current ▸ hcurrent,
      hstands.mono valid (found index block hstands.found) moves.extends.buffer moves.endian_eq⟩
  idle hnone := current ▸ h.idle (opened ▸ hnone)
  closed := closed ▸ h.closed_moves valid moves
  complete := by
    unfold chapters
    rw [opened, closed]
    exact fun block hblock hfilled => h.complete block (filled block hblock hfilled) hfilled

/-- What is registered is registered without the rest of the draft too. -/
theorem Tells.after?_snoc (h : t.Tells platform supply d) (op : Operation) (known : op.KnownIn d.bare)
    (applied : d.bare.apply op = .ok d'.bare) :
    (Draft.blank platform default supply).after? (t.registrations ++ [op]) = some d'.bare := by
  rw [Draft.after?_append, h.bare, Option.bind_some, Draft.after?, if_pos known, applied]
  rfl

theorem Tells.registerUnit (h : t.Tells platform supply d) (valid : d.Valid) (signature : Digest) :
    (t.note (.registerUnit signature)).Tells platform supply (d.unitIndex signature).2 := by
  have hmoves : Draft.Moves (fun _ => True) d (d.unitIndex signature).2 := Draft.unitIndex_moves d signature
  have hfind : d.bare.units.findIdx? (·.signature = signature)
      = d.units.findIdx? (·.signature = signature) := List.findIdx?_map ..
  have hbare : d.bare.apply (.registerUnit signature) = .ok (d.unitIndex signature).2.bare := by
    show Except.ok (d.bare.unitIndex signature).2 = _
    unfold Draft.unitIndex
    rw [hfind]
    split
    · rfl
    · unfold Draft.bare
      rw [List.map_append]
      rfl
  have hafter := h.after?_snoc (.registerUnit signature) (fun _ hr => by cases hr) hbare
  -- Only a signature that is not known adds a unit.
  unfold Draft.unitIndex at hmoves hafter ⊢
  cases hfound : d.units.findIdx? (·.signature = signature) with
  | some index =>
    rw [hfound] at hafter
    exact { h with bare := hafter }
  | none =>
    rw [hfound] at hmoves hafter
    refine h.elsewhere valid hmoves rfl rfl (fun _ _ hfound => hfound) (fun _ hblock _ => hblock) rfl
      h.encoding h.unit hafter (fun index unit hunit => ?_) fun root hroot => ?_
    · change (d.units ++ _)[index]? = some unit at hunit
      rw [List.getElem?_append] at hunit
      split at hunit
      · exact h.roots index unit hunit
      · -- A unit that is registered now has no root yet.
        rename_i hge
        obtain rfl := List.mem_singleton.mp (List.mem_of_getElem? hunit)
        symm
        refine List.lookup_eq_none_iff.mpr fun root hroot => ?_
        have hlt := h.rootsKnown root hroot
        simp only [bne_iff_ne, ne_eq]
        omega
    · have hlt := h.rootsKnown root hroot
      show root.1 < (d.units ++ _).length
      rw [List.length_append]
      exact Nat.lt_add_right _ hlt

theorem Tells.newBlock (h : t.Tells platform supply d) (valid : d.Valid) {alignment : UInt32}
    {limit : Option UInt32} {result : Reference × Draft}
    (applied : d.newBlock alignment.toNat (limit.map (·.toNat)) = .ok result) :
    (t.note (.newBlock alignment limit)).Tells platform supply result.2 := by
  have hmove : Draft.Move (fun _ => True) d result.2 := Draft.newBlock_move applied alignment.toNat_lt
  have hregistered := Draft.newBlock_registered applied
  have hbare : d.bare.apply (.newBlock alignment limit) = .ok result.2.bare := by
    unfold Draft.newBlock at applied
    simp only [refuse_if_eq_ok, pure_eq_ok] at applied
    obtain ⟨hpower, rfl⟩ := applied
    show Except.map _ (d.bare.newBlock _ _) = _
    unfold Draft.newBlock
    rw [if_neg hpower]
    refine congrArg Except.ok ?_
    unfold Draft.bare
    rw [hregistered]
    rfl
  unfold Draft.newBlock at applied
  simp only [refuse_if_eq_ok, pure_eq_ok] at applied
  obtain ⟨-, rfl⟩ := applied
  refine h.elsewhere valid (.single hmove) rfl rfl (fun index block hfound => ?_)
    (fun block hblock hfilled => ?_) rfl h.encoding h.unit
    (h.after?_snoc (.newBlock alignment limit) (fun _ hr => by cases hr) hbare) h.roots h.rootsKnown
  · exact (List.getElem?_append_left (List.getElem?_eq_some_iff.mp hfound).1).trans hfound
  · rcases List.mem_append.mp hblock with hold | hnew
    · exact hold
    · obtain rfl := List.mem_singleton.mp hnew
      cases hfilled

theorem Tells.setRoot (h : t.Tells platform supply d) (valid : d.Valid) {root : Reference}
    (applied : d.setRoot root = .ok d') (known : root.id < d.supply.next) :
    (t.note (.setRoot root)).Tells platform supply d' := by
  have hmove : Draft.Move (fun _ => True) d d' := Draft.setRoot_move applied known
  obtain ⟨unit, hunit, rfl⟩ := Draft.setRoot_eq_ok applied
  have hopen : t.unit = some unit := h.unit.symm.trans hunit
  have hroots : (t.note (.setRoot root)).roots = (unit, root) :: t.roots := by
    show t.unit.toList.map _ ++ _ = _
    rw [hopen]
    rfl
  have hbare : Draft.bare { d with units := d.units.modify unit ({ · with root := some root }) }
      = d.bare := by
    refine Draft.bare_congr rfl rfl rfl (List.ext_getElem? fun i => ?_)
    rw [List.getElem?_map, List.getElem?_map, List.getElem?_modify]
    cases d.units[i]? with
    | none => rfl
    | some u => by_cases hi : unit = i <;> simp [hi]
  refine h.elsewhere valid (.single hmove) rfl rfl (fun _ _ hfound => hfound) (fun _ hblock _ => hblock) rfl
    h.encoding h.unit (hbare ▸ h.bare) (fun index u hu => ?_) fun r hr => ?_
  · rw [hroots, List.lookup_cons]
    rw [List.getElem?_modify] at hu
    by_cases hi : unit = index
    · subst hi
      obtain ⟨u', -, rfl⟩ := Option.map_eq_some_iff.mp hu
      simp
    · obtain ⟨u', hu', rfl⟩ := Option.map_eq_some_iff.mp hu
      rw [beq_false_of_ne (Ne.symm hi)]
      simpa [hi] using h.roots index u' hu'
  · rw [hroots] at hr
    have hlength : (d.units.modify unit ({ · with root := some root })).length = d.units.length :=
      List.length_modify ..
    rw [hlength]
    rcases List.mem_cons.mp hr with rfl | hold
    · exact valid.unitRegistered unit hunit
    · exact h.rootsKnown r hold

theorem Tells.openBlock (h : t.Tells platform supply d) (valid : d.Valid) {reference : Reference}
    (applied : d.openBlock reference = .ok d') :
    (t.note (.openBlock reference)).Tells platform supply d' := by
  have hmove : Draft.Move (fun _ => True) d d' := Draft.openBlock_move applied
  have hregistered := Draft.openBlock_registered applied
  obtain ⟨index, unit, block, hclosed, hunit, hindex, hfound, hfresh, hd'⟩ :=
    Draft.openBlock_eq_ok.mp applied
  have hbare : d'.bare = d.bare := by
    subst hd'
    exact Draft.bare_congr rfl rfl hregistered rfl
  subst hd'
  have hreference := Draft.reference_of_blockIndex? hindex hfound
  have hopened : (t.note (.openBlock reference)).opened = some ⟨reference, unit, []⟩ := by
    show t.unit.map _ = _
    rw [← h.unit, hunit]
    rfl
  -- No block is open before, so the chapter that begins now is the only open one.
  have hidle : t.opened = none := by
    refine Option.eq_none_iff_forall_ne_some.mpr fun chapter hchapter => ?_
    obtain ⟨i, b, c, hcurrent, hstands⟩ := h.opened chapter hchapter
    rw [hstands.active hcurrent] at hclosed
    cases hclosed
  refine
    { encoding := h.encoding
      unit := h.unit
      bare := hbare ▸ h.bare
      roots := h.roots
      rootsKnown := h.rootsKnown
      opened := fun chapter hchapter => ?_
      idle := fun hnone => ?_
      closed := h.closed_moves valid (.single hmove)
      complete := fun other hother hfilled => ?_ }
  · rw [hopened] at hchapter
    cases hchapter
    refine ⟨index, { block with body := some ⟨unit, d.buffer.length, 0, [], []⟩ }, _, rfl,
      ?_, rfl, hreference, rfl, ?_⟩
    · exact List.getElem?_set_self (List.getElem?_eq_some_iff.mp hfound).1
    · exact congrArg (Filling.mk · [] []) List.take_zero
  · rw [hopened] at hnone
    cases hnone
  · unfold chapters
    rw [hopened]
    rcases Draft.mem_set_of_ne hother with rfl | ⟨j, -, hj⟩
    · exact ⟨_, List.mem_cons_self, hreference.symm⟩
    · obtain ⟨chapter, hchapter, heq⟩ := h.complete other (List.mem_of_getElem? hj) hfilled
      unfold chapters at hchapter
      rw [hidle] at hchapter
      exact ⟨chapter, List.mem_cons_of_mem _ hchapter, heq⟩

theorem Tells.closeBlock (h : t.Tells platform supply d) (valid : d.Valid)
    (applied : d.closeBlock = .ok d') : (t.note .closeBlock).Tells platform supply d' := by
  have hmove : Draft.Move (fun _ => True) d d' := Draft.closeBlock_move applied
  have hregistered := Draft.closeBlock_registered applied
  unfold Draft.closeBlock at applied
  simp only [bind_eq_ok, Draft.active_eq_ok, pure_eq_ok, Prod.exists] at applied
  obtain ⟨index, block, body, hactive, padded, -, hd'⟩ := applied
  have hbare : d'.bare = d.bare := by
    subst hd'
    exact Draft.bare_congr rfl rfl hregistered rfl
  subst hd'
  refine
    { encoding := h.encoding
      unit := h.unit
      bare := hbare ▸ h.bare
      roots := h.roots
      rootsKnown := h.rootsKnown
      opened := fun chapter hchapter => by cases hchapter
      idle := fun _ => rfl
      closed := fun chapter hchapter => ?_
      complete := fun block hblock hfilled => ?_ }
  · rcases List.mem_append.mp hchapter with hold | hnew
    · exact h.closed_moves valid (.single hmove) chapter hold
    · obtain ⟨i, b, c, -, hstands⟩ := h.opened chapter (Option.mem_toList.mp hnew)
      exact ⟨i, b, c, Option.some_ne_none i ∘ Eq.symm,
        hstands.mono valid hstands.found hmove.extends.buffer rfl⟩
  · obtain ⟨chapter, hchapter, heq⟩ := h.complete block hblock hfilled
    exact ⟨chapter, List.mem_append_right _ (List.mem_append.mpr (List.mem_append.mp hchapter).symm), heq⟩

/-- What is written goes into the block that is open. -/
theorem Tells.write (h : t.Tells platform supply d) (valid : d.Valid) (known : op.KnownIn d)
    (applied : d.apply op = .ok d') (writes : op.entries d.encoding ≠ []) :
    Tells platform supply
      { t with opened := t.opened.map fun c => { c with entries := c.entries ++ op.entries t.encoding } }
      d' := by
  have hmoves : Draft.Moves (fun _ => True) d d' := Draft.apply_moves known (op.encodesIn_any d) applied
  obtain ⟨index, block, body, body', hactive, hputs⟩ := Draft.apply_puts valid known applied writes
  have hleaves := hputs.leaves (valid.cursor index block body hactive).1 hactive
  obtain ⟨b, hd'⟩ := hleaves.eq
  have hblocks : d'.blocks = d.blocks.set index { block with body := some body' } := by
    rw [hd']
    exact Draft.setBody_blocks hactive body'
  have hbare : d'.bare = d.bare := by
    rw [hd']
    exact Draft.bare_congr rfl rfl (Draft.setBody_registered d index body') rfl
  obtain ⟨hcurrent, hfound, hbody⟩ := Draft.active?_eq_some.mp hactive
  -- A block is open, so its chapter is too, and it stands where the block does.
  obtain ⟨chapter, hchapter⟩ : ∃ chapter, t.opened = some chapter := by
    refine Option.ne_none_iff_exists'.mp fun hnone => ?_
    rw [h.idle hnone] at hcurrent
    cases hcurrent
  obtain ⟨i, bl, c, hi, hstands⟩ := h.opened chapter hchapter
  have hsame := hstands.active hi
  rw [hactive] at hsame
  cases hsame
  have hstands' : Chapter.StandsAt { chapter with entries := chapter.entries ++ op.entries t.encoding } d'
      index { block with body := some body' } body' :=
    { found := by
        rw [hblocks]
        exact List.getElem?_set_self (List.getElem?_eq_some_iff.mp hfound).1
      filled := rfl
      reference := hstands.reference
      unit := hleaves.unit.trans hstands.unit
      filling := by
        rw [hleaves.filling, hstands.filling, hmoves.endian_eq, h.encoding]
        exact (List.foldl_append ..).symm }
  -- The other blocks and the units are as they were; the entries go to the chapter that is open.
  rw [hd'] at hblocks hbare hmoves hstands' ⊢
  refine
    { encoding := h.encoding
      unit := h.unit
      bare := hbare ▸ h.bare
      roots := h.roots
      rootsKnown := h.rootsKnown
      opened := fun other hother => ?_
      idle := fun hnone => h.idle (Option.map_eq_none_iff.mp hnone)
      closed := h.closed_moves valid hmoves
      complete := fun other hother hfilled => ?_ }
  · obtain ⟨chapter', hchapter', rfl⟩ := Option.map_eq_some_iff.mp hother
    obtain rfl := Option.some.inj (hchapter.symm.trans hchapter')
    exact ⟨index, _, _, hcurrent, hstands'⟩
  · rw [hblocks] at hother
    have hmem : ({ chapter with entries := chapter.entries ++ op.entries t.encoding } : Chapter)
        ∈ chapters { t with
          opened := t.opened.map fun c => { c with entries := c.entries ++ op.entries t.encoding } } := by
      refine List.mem_append_left _ ?_
      rw [hchapter]
      exact List.mem_cons_self
    rcases Draft.mem_set_of_ne hother with rfl | ⟨j, -, hj⟩
    · exact ⟨_, hmem, hstands.reference.symm⟩
    · obtain ⟨chapter', hchapter', heq⟩ := h.complete other (List.mem_of_getElem? hj) hfilled
      rcases List.mem_append.mp hchapter' with hopen | hclosed
      · rw [Option.mem_toList] at hopen
        obtain rfl := Option.some.inj (hchapter.symm.trans hopen)
        exact ⟨_, hmem, heq⟩
      · exact ⟨chapter', List.mem_append_right _ hclosed, heq⟩

/-- What is told of a draft is told of it after an operation that has been noted. -/
theorem Tells.apply (h : t.Tells platform supply d) (valid : d.Valid) (known : op.KnownIn d)
    (applied : d.apply op = .ok d') : (t.note op).Tells platform supply d' := by
  -- Operations that write go to the open chapter; those that do not touch blocks leave all chapters alone.
  cases op with
  | takeReference =>
    obtain rfl := Except.ok.inj applied
    have hmove : Draft.Move (fun _ => True) d d.takeReference.2 := .takeReference d
    exact h.elsewhere valid (.single hmove) rfl rfl (fun _ _ hfound => hfound) (fun _ hblock _ => hblock)
      rfl h.encoding h.unit (h.after?_snoc .takeReference (fun _ hr => by cases hr) rfl) h.roots h.rootsKnown
  | registerUnit signature => exact Except.ok.inj applied ▸ h.registerUnit valid signature
  | openUnit index =>
    have hmove : Draft.Move (fun _ => True) d d' := Draft.openUnit_move applied
    obtain rfl := Draft.openUnit_eq_ok applied
    exact h.elsewhere valid (.single hmove) rfl rfl (fun _ _ hfound => hfound) (fun _ hblock _ => hblock)
      rfl h.encoding rfl h.bare h.roots h.rootsKnown
  | closeUnit =>
    have hmove : Draft.Move (fun _ => True) d d' := Draft.closeUnit_move applied
    obtain rfl := Draft.closeUnit_eq_ok applied
    exact h.elsewhere valid (.single hmove) rfl rfl (fun _ _ hfound => hfound) (fun _ hblock _ => hblock)
      rfl h.encoding rfl h.bare h.roots h.rootsKnown
  | setRoot root => exact h.setRoot valid applied (known root rfl)
  | setEncoding encoding =>
    obtain rfl := Except.ok.inj applied
    have hmove : Draft.Move (fun _ => True) d { d with encoding := encoding } :=
      .setEncoding d encoding trivial
    exact h.elsewhere valid (.single hmove) rfl rfl (fun _ _ hfound => hfound) (fun _ hblock _ => hblock)
      rfl rfl h.unit h.bare h.roots h.rootsKnown
  | newBlock alignment limit =>
    obtain ⟨result, hresult, rfl⟩ := map_eq_ok.mp applied
    exact h.newBlock valid hresult
  | openBlock reference => exact h.openBlock valid applied
  | closeBlock => exact h.closeBlock valid applied
  | write step => exact h.write valid known applied (List.cons_ne_nil _ _)
  | writeReference target => exact h.write valid known applied (List.cons_ne_nil _ _)
  | writeReferenceAs target encoding => exact h.write valid known applied (List.cons_ne_nil _ _)
  | writeText target byteCount charCount => exact h.write valid known applied (List.cons_ne_nil _ _)
  | mark target => exact h.write valid known applied (List.cons_ne_nil _ _)

theorem Tells.run {ops : List Operation} (h : t.Tells platform supply d) (valid : d.Valid)
    (run : Draft.Run d ops d') : (ops.foldl note t).Tells platform supply d' := by
  induction run generalizing t with
  | done d => exact h
  | @step d d₁ _ op _ known applied _ ih =>
    have hmoves : Draft.Moves (fun _ => True) d d₁ := Draft.apply_moves known (op.encodesIn_any d) applied
    exact ih (h.apply valid known applied) (valid.moves hmoves)

/-- The transcript of a script tells of the draft that the script leads to. -/
theorem tells_of_run {encoding : PointerEncoding} {ops : List Operation}
    (run : Draft.Run (.blank platform encoding supply) ops d) : (of encoding ops).Tells platform supply d :=
  (blank_tells platform encoding supply).run (Draft.blank_valid platform encoding supply) run

/-! ### What a draft holds -/

/-- What a chapter tells of is in the draft. -/
theorem Tells.stands (h : t.Tells platform supply d) (hchapter : chapter ∈ t.chapters) :
    ∃ index block body, chapter.StandsAt d index block body := by
  rcases List.mem_append.mp hchapter with hopen | hclosed
  · obtain ⟨index, block, body, -, hstands⟩ := h.opened chapter (Option.mem_toList.mp hopen)
    exact ⟨index, block, body, hstands⟩
  · obtain ⟨index, block, body, -, hstands⟩ := h.closed chapter hclosed
    exact ⟨index, block, body, hstands⟩

/-- What a chapter tells of is the block that it names. -/
theorem Tells.stands_of_mem (h : t.Tells platform supply d) (valid : d.Valid)
    (hchapter : chapter ∈ t.chapters) (hblock : block ∈ d.blocks)
    (named : chapter.block = block.reference) :
    ∃ body, block.body = some body ∧ body.unit = chapter.unit ∧
      d.filling body = chapter.filling d.endian := by
  obtain ⟨index, block', body, hstands⟩ := h.stands hchapter
  obtain rfl := valid.eq_of_reference (List.mem_of_getElem? hstands.found) hblock
    (hstands.reference.trans named)
  exact ⟨body, hstands.filled, hstands.unit, hstands.filling⟩

/-- What a block holds is what is told of it, wherever in a transcript that stands. -/
theorem Tells.fillingOf_eq {t' : Transcript} (h : t.Tells platform supply d) (valid : d.Valid)
    (perm : t'.chapters.Perm t.chapters) (hblock : block ∈ d.blocks) :
    t'.fillingOf d.endian block.reference
      = block.body.map fun body => (body.unit, d.filling body) := by
  unfold fillingOf
  cases hfind : t'.chapters.find? (·.block = block.reference) with
  | some chapter =>
    have hnamed : chapter.block = block.reference := by simpa using List.find?_some hfind
    obtain ⟨body, hbody, hunit, hfilling⟩ := h.stands_of_mem valid
      (perm.subset (List.mem_of_find?_eq_some hfind)) hblock hnamed
    rw [hbody, Option.map_some, Option.map_some, hunit, hfilling]
  | none =>
    cases hbody : block.body with
    | none => rfl
    | some body =>
      obtain ⟨chapter, hchapter, hnamed⟩ := h.complete block hblock (by rw [hbody]; rfl)
      exact absurd (decide_eq_true hnamed)
        (List.find?_eq_none.mp hfind chapter (perm.symm.subset hchapter))

end Transcript

/-- The blocks as they were registered, each with its data unit and what stands in it if it has been
opened. -/
def Draft.contents (d : Draft) : List (Block × Option (Nat × Filling)) :=
  d.blocks.map fun block => (block.registered, block.body.map fun body => (body.unit, d.filling body))

/-- A draft holds what is told of it, wherever in a transcript that stands. -/
theorem Transcript.Tells.contents {t' : Transcript} {platform : Platform} {supply : Supply}
    (h : t.Tells platform supply d) (valid : d.Valid) (perm : t'.chapters.Perm t.chapters) :
    d.contents = d.registered.map fun block => (block, t'.fillingOf d.endian block.reference) := by
  unfold Draft.contents Draft.registered
  rw [List.map_map]
  refine List.map_congr_left fun block hblock => ?_
  exact Prod.ext rfl (h.fillingOf_eq valid perm hblock).symm

/-- The section of a block with what stands in it, if it belongs to a data unit. -/
def Block.sectionIn (unit : Nat) : Block × Option (Nat × Filling) → Option Section
  | (block, some (u, f)) =>
    if u = unit then some ⟨block.reference, block.alignment, f.content, f.sites, f.marks⟩ else none
  | (_, none) => none

/-- The sections of a data unit are what stands in its blocks. -/
theorem Draft.sections_eq (d : Draft) (unit : Nat) :
    d.sections unit = d.contents.filterMap (Block.sectionIn unit) := by
  unfold sections contents
  rw [List.filterMap_map]
  refine List.filterMap_congr fun block _ => ?_
  cases hbody : block.body with
  | none => simp [Block.sectionIn, hbody]
  | some body => simp [Block.sectionIn, hbody, Block.section?, Draft.filling, Block.registered]

end ObjectPack
