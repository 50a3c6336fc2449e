import ObjectPack.Proofs.Draft.Outline
import ObjectPack.Proofs.Link.Graph
import ObjectPack.Proofs.Packing.Exact

/-!
# Pending work

While a data unit is packed its slots refer to blocks that are not filled and to texts that are not written.
At every moment a slot refers to what stands in its data unit, to a block that waits to be filled, or to a
text that the unit is going to write (`Packing.Pending`).  Every step of packing keeps this, so nothing is
left dangling when nothing waits.
-/

namespace ObjectPack

open Outcome

/-- What means something in a data unit means it there for ever. -/
theorem Draft.MeansIn.mono {d d' : Draft} {unit : Nat} {r : Reference} (h : d.MeansIn unit r)
    (extends' : d.Extends d') : d'.MeansIn unit r := by
  obtain ⟨block, hblock, body, hbody, hunit, hmeans⟩ := h
  obtain ⟨index, hindex⟩ := List.mem_iff_getElem?.mp hblock
  obtain ⟨block', body', hfound, hreference, hbody', hgrows⟩ := extends'.blocks index block body hindex hbody
  refine ⟨block', List.mem_of_getElem? hfound, body', hbody', hgrows.unit.trans hunit, ?_⟩
  rcases hmeans with rfl | ⟨mark, hmark, hnamed⟩
  · exact Or.inl hreference
  · exact Or.inr ⟨mark, hgrows.marks.subset hmark, hnamed⟩

namespace Packing

variable {m : Model} {registry : Registry} {p p' : Packer} {i : Nat} {reference : Reference} {d : Draft}
  {waiting waiting' targets : List Reference}

/-- Whether a reference is that of a block that waits to be opened, or of a text that the open data unit
uses. -/
def Packer.Awaits (m : Model) (p : Packer) (r : Reference) : Prop :=
  r ∈ p.draft.unopened ∨
    ∃ index ∈ p.texts, ∃ text, m.texts.entry index = .ok text ∧ text.reference = r

/-- Whether all that slots refer to is there or awaited, where some blocks wait in front of those that have
been put off, and no text has been written yet. -/
structure Pending (m : Model) (waiting : List Reference) (p : Packer) : Prop where
  valid : p.draft.Valid
  known : ∀ text ∈ m.texts.entries, text.reference.id < p.draft.supply.next
  unopened : p.draft.unopened = waiting ++ p.blocks.map (·.1)
  refers : ∀ unit target, p.draft.RefersIn unit target →
    p.draft.MeansIn unit target ∨ p.draft.currentUnit = some unit ∧ p.Awaits m target
  unmarked : ∀ unit, p.draft.currentUnit = some unit → ∀ r, ¬ p.draft.MarkedIn unit r
  /-- The references of texts name no blocks. -/
  unnamed : ∀ text ∈ m.texts.entries, ∀ b ∈ p.draft.registered, b.reference ≠ text.reference
  texts : ∀ index ∈ p.texts, ∃ text, m.texts.entry index = .ok text

/-- Work stays pending where what is awaited stays so or is there, and new slots refer to what is
awaited. -/
theorem Pending.change (h : Pending m waiting p)
    (moves : p.draft.Moves (· = p.draft.encoding) p'.draft) (adds : p.draft.Adds p'.draft targets [])
    (unopened : p'.draft.unopened = waiting' ++ p'.blocks.map (·.1))
    (awaits : ∀ target, p.Awaits m target → p'.Awaits m target ∨
      ∀ unit, p.draft.currentUnit = some unit → p'.draft.MeansIn unit target)
    (awaited : ∀ target ∈ targets, p'.Awaits m target)
    (registered : ∀ b ∈ p'.draft.registered, b ∈ p.draft.registered ∨
      p.draft.supply.next ≤ b.reference.id)
    (texts : ∀ index ∈ p'.texts, index ∈ p.texts ∨ ∃ text, m.texts.entry index = .ok text) :
    Pending m waiting' p' where
  valid := h.valid.moves moves
  known text htext := Nat.lt_of_lt_of_le (h.known text htext) moves.supply_le
  unopened := unopened
  refers unit target hrefers := by
    rw [adds.currentUnit]
    rcases adds.refers unit target hrefers with hold | ⟨hunit, hnew⟩
    · rcases h.refers unit target hold with hmeans | ⟨hunit, hawaits⟩
      · exact Or.inl (hmeans.mono moves.extends)
      · -- A target that was awaited is awaited still, unless it has a meaning by now.
        rcases awaits target hawaits with hawaits | hmeans
        · exact Or.inr ⟨hunit, hawaits⟩
        · exact Or.inl (hmeans unit hunit)
    · exact Or.inr ⟨hunit, awaited target hnew⟩
  unmarked unit hunit r hmarked := by
    rw [adds.currentUnit] at hunit
    rcases adds.marked unit r hmarked with hold | ⟨-, hnew⟩
    · exact h.unmarked unit hunit r hold
    · cases hnew
  unnamed text htext b hb := by
    rcases registered b hb with hold | hnew
    · exact h.unnamed text htext b hold
    · intro heq
      exact absurd (h.known text htext) (Nat.not_lt.mpr (heq ▸ hnew))
  texts index hindex := (texts index hindex).elim (h.texts index) id

/-- Work stays pending where nothing is opened or registered. -/
theorem Pending.write (h : Pending m waiting p) (moves : p.draft.Moves (· = p.draft.encoding) d)
    (adds : p.draft.Adds d targets []) (unopened : d.unopened = p.draft.unopened)
    (awaited : ∀ target ∈ targets, p.Awaits m target)
    (registered : d.registered = p.draft.registered) : Pending m waiting { p with draft := d } := by
  have hawaits : ∀ target, p.Awaits m target → Packer.Awaits m { p with draft := d } target :=
    fun _ hawaits => hawaits.imp (fun hmem => unopened ▸ hmem) id
  exact h.change moves adds (unopened.trans h.unopened) (fun target htarget => Or.inl (hawaits target htarget))
    (fun target htarget => hawaits target (awaited target htarget))
    (fun b hb => Or.inl (registered ▸ hb)) fun _ hindex => Or.inl hindex

theorem Pending.appends (h : Pending m waiting p) (appends : p.draft.Appends d) :
    Pending m waiting { p with draft := d } :=
  h.write appends.moves (appends.adds h.valid) appends.unopened (fun _ hnone => absurd hnone List.not_mem_nil)
    appends.registered

theorem Packer.Awaits.known {target : Reference} (h : Pending m waiting p) (awaits : p.Awaits m target) :
    target.id < p.draft.supply.next := by
  rcases awaits with hwaits | ⟨index, -, text, hentry, rfl⟩
  · obtain ⟨block, hblock, -, rfl⟩ := Draft.mem_unopened.mp hwaits
    exact h.valid.referencesKnown block hblock
  · exact h.known text (List.mem_of_getElem? (indexed_eq_ok.mp hentry))

/-- A slot may refer to what is awaited. -/
theorem Pending.writeReference (h : Pending m waiting p) (awaits : p.Awaits m reference)
    (step : p.draft.writeReference reference = .ok d) : Pending m waiting { p with draft := d } :=
  h.write (Draft.writeReferenceAs_moves step (awaits.known h) rfl) (Draft.writeReference_adds h.valid step)
    (Draft.writeReference_unopened step) (fun _ htarget => List.mem_singleton.mp htarget ▸ awaits)
    (Draft.writeReference_registered step)

/-- A text that is used is awaited. -/
theorem Pending.useText (h : Pending m waiting p) {index : Nat} {text : PooledText}
    (entry : m.texts.entry index = .ok text) :
    Pending m waiting { p with texts := p.texts ++ [index] } := by
  refine h.change .refl (.refl _) h.unopened (fun target hawaits => Or.inl ?_)
    (fun _ hnone => absurd hnone List.not_mem_nil) (fun _ hb => Or.inl hb) fun k hk => ?_
  · exact hawaits.imp id fun ⟨k, hk, hrest⟩ => ⟨k, List.mem_append_left _ hk, hrest⟩
  · rcases List.mem_append.mp hk with hk | hk
    · exact Or.inl hk
    · exact Or.inr ⟨text, List.mem_singleton.mp hk ▸ entry⟩

theorem deferBlock_keeps (h : deferBlock m p i = .ok (reference, p')) :
    p'.texts = p.texts ∧ p'.units = p.units := by
  unfold deferBlock at h
  simp only [bind_eq_ok, pure_eq_ok, Prod.exists, Prod.mk.injEq] at h
  obtain ⟨_, _, _, _, _, _, _, -, rfl⟩ := h
  exact ⟨rfl, rfl⟩

/-- A block that is put off is awaited. -/
theorem Pending.deferBlock (h : Pending m waiting p) (owns : m.OwnsBlock i)
    (step : deferBlock m p i = .ok (reference, p')) :
    Pending m waiting p' ∧ p'.Awaits m reference := by
  obtain ⟨alignment, size, hword, hnew, hblocks, -, hleads⟩ := deferBlock_eq_ok step owns
  have hunopened : p'.draft.unopened = p.draft.unopened ++ [reference] := Draft.newBlock_unopened hnew
  have hregistered := Draft.newBlock_registered hnew
  have htexts := (deferBlock_keeps step).1
  have hfresh := Draft.newBlock_reference hnew
  refine ⟨h.change (.single (Draft.newBlock_move hnew hword)) (Draft.newBlock_adds hnew) ?_ ?_
    (fun _ hnone => absurd hnone List.not_mem_nil) ?_ ?_, Or.inl ?_⟩
  · rw [hunopened, h.unopened, hblocks, List.map_append, List.append_assoc]
    rfl
  · refine fun target hawaits => Or.inl (hawaits.imp (fun hmem => ?_) fun hmem => htexts ▸ hmem)
    rw [hunopened]
    exact List.mem_append_left _ hmem
  · intro b hb
    rw [hregistered] at hb
    rcases List.mem_append.mp hb with hb | hb
    · exact Or.inl hb
    · obtain rfl := List.mem_singleton.mp hb
      exact Or.inr (Nat.le_of_eq hfresh.symm)
  · exact fun k hk => Or.inl (htexts ▸ hk)
  · rw [hunopened]
    exact List.mem_append_right _ (List.mem_singleton_self _)

/-! ### Rows -/

/-- What packing row `i` may put off: the block of the row, and its data unit. -/
structure PutsOff (p p' : Packer) (i : Nat) (row : Row) : Prop where
  blocks : ∀ e ∈ p'.blocks, e ∈ p.blocks ∨ e.2 = i ∧ row.HasBlock
  units : ∀ j ∈ p'.units, j ∈ p.units ∨ j = i ∧ ∃ s, row.value = .dataUnit s

theorem PutsOff.of_eq {row : Row} (blocks : p'.blocks = p.blocks) (units : p'.units = p.units) :
    PutsOff p p' i row :=
  ⟨fun _ he => Or.inl (blocks ▸ he), fun _ hj => Or.inl (units ▸ hj)⟩

/-- The slot of a row refers to the block of the row, which is put off. -/
theorem Pending.referToBlock (h : Pending m waiting p) (owns : m.OwnsBlock i)
    (step : referToBlock m p i = .ok p') :
    Pending m waiting p' ∧ ∃ reference, p'.blocks = p.blocks ++ [(reference, i)] ∧ p'.units = p.units := by
  unfold Packing.referToBlock at step
  simp only [bind_eq_ok, Prod.exists] at step
  obtain ⟨reference, p₁, hdefer, hslot⟩ := step
  obtain ⟨d, hwrite, rfl⟩ := onDraft_eq_ok.mp hslot
  obtain ⟨hpending, hawaits⟩ := h.deferBlock owns hdefer
  refine ⟨hpending.writeReference hawaits hwrite, reference, ?_⟩
  unfold Packing.deferBlock at hdefer
  simp only [bind_eq_ok, pure_eq_ok, Prod.exists, Prod.mk.injEq] at hdefer
  obtain ⟨_, _, _, _, _, _, _, rfl, rfl⟩ := hdefer
  exact ⟨rfl, rfl⟩

theorem PutsOff.of_block {row : Row} {reference : Reference} (block : row.HasBlock)
    (blocks : p'.blocks = p.blocks ++ [(reference, i)]) (units : p'.units = p.units) :
    PutsOff p p' i row := by
  refine ⟨fun e he => ?_, fun _ hj => Or.inl (units ▸ hj)⟩
  rw [blocks] at he
  rcases List.mem_append.mp he with he | he
  · exact Or.inl he
  · obtain rfl := List.mem_singleton.mp he
    exact Or.inr ⟨rfl, block⟩

/-- A collection refers to its block unless it is said to be empty. -/
theorem Pending.writeCollection (h : Pending m waiting p) {row : Row} (hrow : m.row i = .ok row)
    (present : row.value = .present) (kind : row.kind = .array ∨ row.kind = .dictionary)
    {p₁ : Packer} {counts : List WriteStep}
    (slot : (if row.countWord = 0 then p.onDraft (·.writeNull) else Packing.referToBlock m p i) = .ok p₁)
    (step : p₁.onDraft (·.performAll counts) = .ok p') : Pending m waiting p' ∧ PutsOff p p' i row := by
  obtain ⟨d, hcounts, rfl⟩ := onDraft_eq_ok.mp step
  have happends := Draft.performAll_appends hcounts
  split at slot
  · obtain ⟨d₁, hnull, rfl⟩ := onDraft_eq_ok.mp slot
    exact ⟨h.appends ((Draft.writeNull_appends hnull).trans happends), .of_eq rfl rfl⟩
  · rename_i hcount
    obtain ⟨hpending, reference, hblocks, hunits⟩ := h.referToBlock ⟨row, hrow, Or.inr kind⟩ slot
    exact ⟨hpending.appends happends, .of_block ⟨present, Or.inr ⟨kind, hcount⟩⟩ hblocks hunits⟩

/-- A row whose data stands elsewhere refers to what is awaited. -/
theorem Pending.writePresent (h : Pending m waiting p) {row : Row} (hrow : m.row i = .ok row)
    (present : row.value = .present) (step : writePresent m p i = .ok p') :
    Pending m waiting p' ∧ PutsOff p p' i row := by
  unfold Packing.writePresent at step
  simp only [hrow, bind_eq_ok, Except.ok.injEq, exists_eq_left'] at step
  cases hkind : row.kind <;> simp only [hkind, throw_ne_ok] at step
  case string =>
    simp only [bind_eq_ok, pure_eq_ok] at step
    obtain ⟨index, -, text, hentry, p₁, hslot, rfl⟩ := step
    obtain ⟨d, hwrite, rfl⟩ := onDraft_eq_ok.mp hslot
    obtain ⟨d₁, hreference, happends⟩ := Draft.writeText_cases hwrite
    have hused := h.useText hentry
    have hawaits : Packer.Awaits m { p with texts := p.texts ++ [index] } text.reference :=
      Or.inr ⟨index, List.mem_append_right _ (List.mem_singleton_self _), text, hentry, rfl⟩
    exact ⟨(hused.writeReference hawaits hreference).appends happends, .of_eq rfl rfl⟩
  case object =>
    obtain ⟨hpending, reference, hblocks, hunits⟩ := h.referToBlock ⟨row, hrow, Or.inl hkind⟩ step
    exact ⟨hpending, .of_block ⟨present, Or.inl hkind⟩ hblocks hunits⟩
  case array =>
    obtain ⟨p₁, hslot, hcounts⟩ := ite_bind_eq_ok.mp step
    exact h.writeCollection hrow present (Or.inl hkind) hslot hcounts
  case dictionary =>
    obtain ⟨p₁, hslot, hcounts⟩ := ite_bind_eq_ok.mp step
    exact h.writeCollection hrow present (Or.inr hkind) hslot hcounts

/-- A row that is no reference puts nothing off but its data unit. -/
theorem Pending.behind (h : Pending m waiting p) {row : Row} (appends : p.draft.Appends d) :
    Pending m waiting (p.behind i row d) ∧ PutsOff p (p.behind i row d) i row := by
  have hkept := h.appends appends
  unfold Packer.behind
  split
  · rename_i signature hvalue
    unfold meet
    split
    · exact ⟨hkept, .of_eq rfl rfl⟩
    · refine ⟨⟨hkept.valid, hkept.known, hkept.unopened, hkept.refers, hkept.unmarked, hkept.unnamed,
        hkept.texts⟩, fun _ he => Or.inl he, fun j hj => ?_⟩
      exact (List.mem_append.mp hj).imp id fun hj => ⟨List.mem_singleton.mp hj, signature, hvalue⟩
  · exact ⟨hkept, .of_eq rfl rfl⟩

/-- Packing a row leaves pending what the row refers to. -/
theorem Pending.writeRow (h : Pending m waiting p) {row : Row} (hrow : m.row i = .ok row)
    (step : writeRow m registry p i = .ok p') : Pending m waiting p' ∧ PutsOff p p' i row := by
  obtain ⟨alignment, d₁, row', -, halign, hrow', hcases⟩ := writeRow_cases step
  rw [hrow] at hrow'
  cases hrow'
  have happends := Draft.align_appends halign
  rcases hcases with ⟨steps, d₂, -, hperform, -, rfl⟩ | ⟨hpresent, hwrite⟩
  · exact h.behind (happends.trans (Draft.performAll_appends hperform))
  · have hputs : PutsOff { p with draft := d₁ } p' i row → PutsOff p p' i row :=
      fun hputs => ⟨hputs.blocks, hputs.units⟩
    exact ((h.appends happends).writePresent hrow hpresent hwrite).imp id hputs

/-! ### Blocks -/

/-- A block that is opened is there. -/
theorem Pending.openBlock {before after : List Reference}
    (h : Pending m (before ++ reference :: after) p) (step : p.draft.openBlock reference = .ok d) :
    Pending m (before ++ after) { p with draft := d } := by
  have hunopened := Draft.openBlock_unopened h.valid step
  have hopening := (Draft.openBlock_opened step).1
  have hnodup := h.valid.unopened_nodup
  obtain ⟨-, index, body, hopened, -, hcurrent⟩ := Draft.openBlock_opened step
  refine h.change hopening.moves (Draft.openBlock_adds step) ?_ (fun target hawaits => ?_)
    (fun _ hnone => absurd hnone List.not_mem_nil)
    (fun b hb => Or.inl (Draft.openBlock_registered step ▸ hb)) fun _ hindex => Or.inl hindex
  · rw [h.unopened, List.append_assoc, List.cons_append] at hnodup
    have hnotin := fun hmem => (List.nodup_append.mp hnodup).2.2 _ hmem _ List.mem_cons_self rfl
    show d.unopened = _
    rw [hunopened, h.unopened, List.append_assoc, List.cons_append, List.erase_append_right _ hnotin,
      List.erase_cons_head, List.append_assoc]
  · rcases hawaits with hwaits | hused
    · by_cases heq : target = reference
      · refine Or.inr fun unit hunit => ?_
        obtain ⟨block, hactive, hreference⟩ := hopened
        obtain ⟨-, hfound, hbody⟩ := Draft.active?_eq_some.mp hactive
        rw [hcurrent] at hunit
        exact ⟨block, List.mem_of_getElem? hfound, body, hbody, Option.some.inj hunit,
          Or.inl (hreference.trans heq.symm)⟩
      · refine Or.inl (Or.inl ?_)
        show target ∈ d.unopened
        rw [hunopened]
        exact (List.mem_erase_of_ne heq).mpr hwaits
    · exact Or.inl (Or.inr hused)

theorem Pending.closeBlock (h : Pending m waiting p) (step : p.draft.closeBlock = .ok d) :
    Pending m waiting { p with draft := d } :=
  h.write (Draft.closeBlock_closed step).moves (Draft.closeBlock_adds step)
    (Draft.unopened_eq (Draft.closeBlock_blocks step).1) (fun _ hnone => absurd hnone List.not_mem_nil)
    (Draft.closeBlock_registered step)

end Packing

end ObjectPack
