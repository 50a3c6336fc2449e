import ObjectPack.Proofs.Draft.Filling
import ObjectPack.Proofs.Packing.Finish

/-!
# The block of texts

Texts are written in the order of their checksums, and where these are equal, of their indices
(`TextPool.pairwise_writingOrder`).  Only one list of indices is in this order and has given members, so what is written
depends on nothing but the set of indices that are asked for (`TextPool.writingOrder_congr`).  What the block holds
then is the texts one after another, each with a zero byte behind it and its mark in front of it, and nothing else; the
rest of the draft stays as it is (`TextPool.Ready.fillBlock_eq`).
-/

namespace ObjectPack

open Outcome

namespace TextPool

variable {pool : TextPool} {d d' : Draft} {index unit i : Nat} {indices indices' order order' : List Nat}
  {block : Block} {body : Body} {t : PooledText} {texts : List PooledText}

/-! ### The order of writing -/

/-- Whether the text of one index is written before that of another one: its checksum is smaller, or the checksums are
equal and its index is smaller. -/
def Before (pool : TextPool) (i j : Nat) : Prop :=
  ∃ t u, pool.entry i = .ok t ∧ pool.entry j = .ok u ∧
    (t.checksum < u.checksum ∨ t.checksum = u.checksum ∧ i < j)

theorem Before.asymm {j : Nat} (h : pool.Before i j) : ¬ pool.Before j i := by
  rintro ⟨u', t', hu', ht', h'⟩
  obtain ⟨t, u, ht, hu, h⟩ := h
  obtain rfl := Except.ok.inj (ht.symm.trans ht')
  obtain rfl := Except.ok.inj (hu.symm.trans hu')
  rw [UInt32.lt_iff_toNat_lt, ← UInt32.toNat_inj] at h h'
  omega

/-- Texts are written in the order of their checksums, texts of one checksum in that of their indices. -/
theorem pairwise_writingOrder (h : pool.writingOrder indices = .ok order) : order.Pairwise pool.Before := by
  have hnodup := nodup_writingOrder h
  unfold writingOrder at h
  split at h
  · cases h
    exact .nil
  · cases h
    exact List.pairwise_singleton _ _
  · simp only [bind_eq_ok, pure_eq_ok] at h
    obtain ⟨keys, hkeys, rfl⟩ := h
    have hperm := Sorting.sortBy_perm Sorting.lexLe keys
    have hkey := checksum_of_keys (mapM_eq_ok hkeys)
    -- Sorted keys lead to indices of which none comes before an earlier one, except for repetitions.
    have hindices : ((Sorting.sortBy Sorting.lexLe keys).map (·.2)).Pairwise fun i j => i = j ∨ pool.Before i j := by
      refine List.pairwise_map.mpr ((Sorting.pairwise_sortBy_lexLe keys).imp_of_mem fun {a b} ha hb hle => ?_)
      obtain ⟨t, ht, hta⟩ := hkey a (hperm.mem_iff.mp ha)
      obtain ⟨u, hu, hub⟩ := hkey b (hperm.mem_iff.mp hb)
      rw [or_iff_not_imp_left]
      intro hne
      refine ⟨t, u, ht, hu, ?_⟩
      rw [Sorting.lexLe_iff, hta, hub] at hle
      rw [UInt32.lt_iff_toNat_lt, ← UInt32.toNat_inj]
      omega
    exact ((hindices.sublist (Sorting.dropRepeats_sublist _)).and hnodup).imp fun h => h.1.resolve_left h.2

/-- Two lists in this order are equal if they have the same members. -/
theorem eq_of_pairwise_before (h : order.Pairwise pool.Before) (h' : order'.Pairwise pool.Before)
    (same : ∀ i, i ∈ order ↔ i ∈ order') : order = order' := by
  have hirrefl : Std.Irrefl pool.Before := ⟨fun _ hbefore => hbefore.asymm hbefore⟩
  have hantisymm : Std.Antisymm pool.Before := ⟨fun _ _ hbefore hafter => absurd hafter hbefore.asymm⟩
  exact h.eq_of_mem_iff h' same

/-- The order of writing depends on the set of indices only. -/
theorem writingOrder_congr (there : ∀ i ∈ indices, ∃ t, pool.entry i = .ok t)
    (same : ∀ i, i ∈ indices' ↔ i ∈ indices) : pool.writingOrder indices' = pool.writingOrder indices := by
  obtain ⟨order, horder⟩ := exists_writingOrder there
  obtain ⟨order', horder'⟩ := exists_writingOrder fun i hi => there i ((same i).mp hi)
  rw [horder, horder', eq_of_pairwise_before (pairwise_writingOrder horder') (pairwise_writingOrder horder) fun i => ?_]
  rw [mem_writingOrder horder, mem_writingOrder horder', same]

/-! ### What is written -/

/-- The bytes of some texts, each with a zero byte behind it. -/
def contentOf (texts : List PooledText) : Bytes := texts.flatMap fun t => t.bytes ++ [0]

/-- The marks of some texts that are written from an offset on, each where its text begins. -/
def marksOf (offset : Nat) (texts : List PooledText) : List Mark :=
  texts.mapIdx fun k t => ⟨t.reference, offset + (contentOf (texts.take k)).length⟩

@[simp] theorem contentOf_nil : contentOf [] = [] := rfl

theorem contentOf_singleton (t : PooledText) : contentOf [t] = t.bytes ++ [0] := List.append_nil _

theorem contentOf_append (texts later : List PooledText) :
    contentOf (texts ++ later) = contentOf texts ++ contentOf later := List.flatMap_append

theorem contentOf_cons (t : PooledText) (texts : List PooledText) :
    contentOf (t :: texts) = contentOf [t] ++ contentOf texts := contentOf_append [t] texts

@[simp] theorem marksOf_nil (offset : Nat) : marksOf offset [] = [] := rfl

theorem marksOf_cons (offset : Nat) (t : PooledText) (texts : List PooledText) :
    marksOf offset (t :: texts) = ⟨t.reference, offset⟩ :: marksOf (offset + (contentOf [t]).length) texts := by
  unfold marksOf
  rw [List.mapIdx_cons]
  congr 1
  refine congrArg (List.mapIdx · texts) (funext fun k => funext fun u => ?_)
  rw [List.take_succ_cons, contentOf_cons t, List.length_append, Nat.add_assoc]

theorem exists_mem_marksOf {r : Reference} (offset : Nat) (texts : List PooledText) :
    (∃ mark ∈ marksOf offset texts, mark.reference = r) ↔ ∃ t ∈ texts, t.reference = r := by
  induction texts generalizing offset with
  | nil => simp only [marksOf_nil, List.not_mem_nil, false_and, exists_false]
  | cons t texts ih => simp only [marksOf_cons, List.mem_cons, or_and_right, exists_or, exists_eq_left, ih]

/-- The text of a mark stands where the mark is set, with a zero byte behind it. -/
theorem bytes_at_mark {k : Nat} (h : texts[k]? = some t) : ∃ mark, (marksOf 0 texts)[k]? = some mark ∧
    mark.reference = t.reference ∧ t.bytes ++ [0] <+: (contentOf texts).drop mark.offset := by
  obtain ⟨hlt, rfl⟩ := List.getElem?_eq_some_iff.mp h
  refine ⟨⟨texts[k].reference, 0 + (contentOf (texts.take k)).length⟩, ?_, rfl, ?_⟩
  · unfold marksOf
    rw [List.getElem?_mapIdx, h, Option.map_some]
  · have hsplit : contentOf texts = contentOf (texts.take k) ++ contentOf (texts.drop k) := by
      rw [← contentOf_append, List.take_append_drop]
    rw [Nat.zero_add, hsplit, List.drop_left, List.drop_eq_getElem_cons hlt, contentOf_cons, contentOf_singleton]
    exact List.prefix_append _ _

/-- A body with some texts behind its content. -/
def withTexts (body : Body) (texts : List PooledText) : Body :=
  { body with size := body.size + (contentOf texts).length, marks := body.marks ++ marksOf body.size texts }

theorem withTexts_nil (body : Body) : withTexts body [] = body := by
  unfold withTexts
  simp only [contentOf_nil, marksOf_nil, List.length_nil, Nat.add_zero, List.append_nil]

theorem withTexts_cons (body : Body) (t : PooledText) (texts : List PooledText) :
    withTexts body (t :: texts) = withTexts (withTexts body [t]) texts := by
  unfold withTexts
  simp only [contentOf_cons t texts, marksOf_cons, marksOf_nil, List.length_append, List.append_assoc,
    List.singleton_append, Nat.add_assoc]

/-- A text is written behind its mark. -/
theorem writeEntry_became (active : d.active? = some (index, block, body)) (h : pool.writeEntry d i = .ok d') :
    ∃ t, pool.entry i = .ok t ∧ d' = d.became index (withTexts body [t]) (contentOf [t]) := by
  unfold writeEntry at h
  simp only [bind_eq_ok] at h
  obtain ⟨t, ht, d₁, hmark, d₂, hbytes, hzero⟩ := h
  have hmarked := Draft.put_active active (.mark t.reference)
  obtain rfl := Draft.mark_put hmark active
  obtain rfl := Draft.append_grown hbytes hmarked
  obtain rfl := Draft.append_grown (Draft.write_eq_ok.mp hzero).2 (Draft.grown_active hmarked _)
  have hbyte : ∀ e, (Scalar.u8 0).encode e = [0] := by
    intro e
    cases e <;> decide
  refine ⟨t, ht, ?_⟩
  rw [Draft.grown_grown, hbyte, ← contentOf_singleton]
  show (d.became index _ []).became index _ (contentOf [t]) = _
  rw [Draft.became_became]
  unfold withTexts Body.put Entry.sitesAt
  simp only [List.append_nil]
  rfl

/-- Some texts are written one behind the other. -/
theorem writeEntries_became (active : d.active? = some (index, block, body))
    (h : order.foldlM pool.writeEntry d = .ok d') : ∃ texts,
      List.Forall₂ (fun i t => pool.entry i = .ok t) order texts ∧
      d' = d.became index (withTexts body texts) (contentOf texts) := by
  induction order generalizing d block body with
  | nil =>
    obtain rfl := Except.ok.inj h
    exact ⟨[], .nil, (withTexts_nil body).symm ▸ (Draft.became_nil active).symm⟩
  | cons i order ih =>
    rw [List.foldlM_cons, bind_eq_ok] at h
    obtain ⟨d₁, hfirst, hrest⟩ := h
    obtain ⟨t, ht, rfl⟩ := writeEntry_became active hfirst
    obtain ⟨texts, htexts, rfl⟩ := ih (Draft.became_active active _ _) hrest
    refine ⟨t :: texts, .cons ht htexts, ?_⟩
    rw [Draft.became_became, withTexts_cons body t texts, contentOf_cons t texts]

/-! ### The block -/

/-- What stands in a block of texts that begins at the end of a buffer. -/
def textBody (d : Draft) (unit : Nat) (texts : List PooledText) : Body :=
  ⟨unit, d.buffer.length, (contentOf texts).length, [], marksOf 0 texts⟩

/-- The draft in which a block has been opened in a data unit. -/
def opened (d : Draft) (unit index : Nat) (block : Block) : Draft :=
  { d with
    blocks := d.blocks.set index { block with body := some (textBody d unit []) }
    currentBlock := some index }

/-- The draft in which a block has been opened in a data unit, filled with some texts and closed, with padding up to a
size. -/
def filled (d : Draft) (unit index : Nat) (block : Block) (texts : List PooledText) (padded : Nat) : Draft :=
  { d with
    buffer := (d.buffer ++ contentOf texts).padTo (d.buffer.length + padded)
    blocks := d.blocks.set index { block with body := some (textBody d unit texts) }
    currentBlock := none }

/-- Whether the texts of a pool are distinct and have references of their own, which a draft has given away and which
name none of its blocks. -/
structure Own (pool : TextPool) (d : Draft) : Prop where
  texts : (pool.entries.map (·.text)).Nodup
  references : (pool.entries.map (·.reference)).Nodup
  known : ∀ t ∈ pool.entries, t.reference.id < d.supply.next
  unnamed : ∀ t ∈ pool.entries, ∀ b ∈ d.registered, b.reference ≠ t.reference

/-- Different indices select different texts. -/
theorem Own.nodup_texts (own : pool.Own d) (distinct : order.Nodup)
    (h : List.Forall₂ (fun i t => pool.entry i = .ok t) order texts) : (texts.map (·.text)).Nodup := by
  induction h with
  | nil => exact .nil
  | @cons i t order texts ht htexts ih =>
    obtain ⟨hnew, hrest⟩ := List.nodup_cons.mp distinct
    refine List.nodup_cons.mpr ⟨fun hold => ?_, ih hrest⟩
    obtain ⟨u, hu, heq⟩ := List.mem_map.mp hold
    obtain ⟨j, hj, hentry⟩ := exists_of_forall₂ htexts.flip hu
    exact hnew (index_of_key own.texts ht hentry heq.symm ▸ hj)

/-- Whether texts can be written into a block that has not been opened: it has no limit, and none of their references
means something in the open data unit. -/
structure Ready (pool : TextPool) (d : Draft) (unit index : Nat) (block : Block) : Prop where
  valid : d.Valid
  closed : d.active? = none
  current : d.currentUnit = some unit
  found : d.blocks[index]? = some block
  fresh : block.body = none
  free : block.limit = none
  own : pool.Own d
  unmarked : ∀ t ∈ pool.entries, ¬ d.MarkedIn unit t.reference

namespace Ready

variable (h : pool.Ready d unit index block)

include h

theorem openBlock_eq : d.openBlock block.reference = .ok (opened d unit index block) :=
  Draft.openBlock_eq_ok.mpr
    ⟨index, unit, block, h.closed, h.current, h.valid.blockIndex?_eq h.found, h.found, h.fresh, rfl⟩

theorem opened_active : (opened d unit index block).active?
    = some (index, { block with body := some (textBody d unit []) }, textBody d unit []) :=
  Draft.active?_eq_some.mpr ⟨rfl, List.getElem?_set_self (List.getElem?_eq_some_iff.mp h.found).1, rfl⟩

theorem writable (there : ∀ i ∈ order, ∃ t, pool.entry i = .ok t) :
    pool.Writable order unit block.registered (opened d unit index block) where
  valid := h.valid.moves (Draft.openBlock_opened h.openBlock_eq).1.moves
  free := h.free
  stands := ⟨0, index, _, _, h.opened_active, rfl, rfl⟩
  current := h.current
  known := h.own.known
  unnamed := Draft.openBlock_registered h.openBlock_eq ▸ h.own.unnamed
  once := h.own.references
  there := there
  unmarked i _ t ht hmarked := by
    rcases (Draft.openBlock_adds h.openBlock_eq).marked unit t.reference hmarked with hold | ⟨-, hnone⟩
    · exact h.unmarked t (List.mem_of_getElem? (indexed_eq_ok.mp ht)) hold
    · exact absurd hnone List.not_mem_nil

/-- Closing the block after some texts have been written into it. -/
theorem closeBlock_eq (texts : List PooledText) : ((opened d unit index block).became index
      (withTexts (textBody d unit []) texts) (contentOf texts)).closeBlock
    = (alignUp (contentOf texts).length block.alignment).map (filled d unit index block texts) := by
  have htexts : withTexts (textBody d unit []) texts = textBody d unit texts := by
    unfold withTexts textBody
    simp only [contentOf_nil, List.length_nil, Nat.zero_add, marksOf_nil, List.nil_append]
  have hblocks := Draft.setBody_blocks h.opened_active (textBody d unit texts)
  rw [show (opened d unit index block).blocks = d.blocks.set index _ from rfl, List.set_set] at hblocks
  rw [htexts]
  unfold Draft.closeBlock
  rw [Draft.active_eq_ok.mpr (Draft.became_active h.opened_active (textBody d unit texts) (contentOf texts))]
  show (alignUp (contentOf texts).length block.alignment >>= fun padded => _) = _
  cases alignUp (contentOf texts).length block.alignment with
  | error fault => rfl
  | ok padded =>
    refine congrArg Except.ok ?_
    unfold filled Draft.became
    simp only [hblocks]
    rfl

/-- Writing texts that are in the pool fails only if the size of the block cannot be padded.  The block then holds the
texts, each of them once, in the order of writing, and the rest of the draft is what it was. -/
theorem fillBlock_eq (there : ∀ i ∈ indices, ∃ t, pool.entry i = .ok t) :
    ∃ order texts, pool.writingOrder indices = .ok order ∧
      List.Forall₂ (fun i t => pool.entry i = .ok t) order texts ∧
      pool.fillBlock d block.reference indices
        = (alignUp (contentOf texts).length block.alignment).map (filled d unit index block texts) := by
  obtain ⟨order, horder⟩ := exists_writingOrder there
  have hwritable := h.writable fun i hi => there i ((mem_writingOrder horder i).mp hi)
  obtain ⟨d', hwrite, -⟩ := hwritable.exists_writeEntries (nodup_writingOrder horder)
  obtain ⟨texts, htexts, rfl⟩ := writeEntries_became h.opened_active hwrite
  refine ⟨order, texts, horder, htexts, ?_⟩
  rw [← h.closeBlock_eq]
  simp only [fillBlock, horder, h.openBlock_eq, hwrite, bind, Except.bind]

/-- Of the references in the draft only those of the texts have been marked, in the open data unit. -/
theorem markedIn_filled (texts : List PooledText) (padded unit' : Nat) (r : Reference) :
    (filled d unit index block texts padded).MarkedIn unit' r ↔
      d.MarkedIn unit' r ∨ unit' = unit ∧ ∃ t ∈ texts, t.reference = r := by
  have hlt := (List.getElem?_eq_some_iff.mp h.found).1
  have hbody : ∀ body, (filled d unit index block texts padded).HasBody body ↔
      d.HasBody body ∨ body = textBody d unit texts := by
    intro body
    constructor
    · rintro ⟨b, hb, hbody⟩
      rcases Draft.mem_set_of_ne hb with rfl | ⟨j, -, hj⟩
      · exact .inr (Option.some.inj hbody).symm
      · exact .inl ⟨b, List.mem_of_getElem? hj, hbody⟩
    · rintro (⟨b, hb, hbody⟩ | rfl)
      · obtain ⟨j, hj⟩ := List.mem_iff_getElem?.mp hb
        have hne : index ≠ j := by
          rintro rfl
          obtain rfl := Option.some.inj (h.found.symm.trans hj)
          exact Option.some_ne_none body (hbody.symm.trans h.fresh)
        exact ⟨b, List.mem_of_getElem? ((List.getElem?_set_ne hne).trans hj), hbody⟩
      · exact ⟨_, List.mem_of_getElem? (List.getElem?_set_self hlt), rfl⟩
  unfold Draft.MarkedIn
  simp only [hbody, or_and_right, exists_or, exists_eq_left]
  refine or_congr_right ?_
  rw [← exists_mem_marksOf 0, eq_comm]
  rfl

end Ready

end TextPool

end ObjectPack
