import ObjectPack.Proofs.Link.Total
import ObjectPack.Proofs.Packing.Total

/-!
# Packing that comes to its end

When all blocks of a data unit are filled, its texts are written, each of them once
(`TextPool.exists_fillBlock`), and nothing is left that a slot refers to and that is not there.  So the data
units of a model can be packed one after another, and leave a draft behind in which no block waits and every
slot refers to something in its data unit (`Packing.exists_packFrom`).
-/

namespace ObjectPack

open Outcome

/-! ### Texts -/

namespace TextPool

variable {pool : TextPool} {d d' : Draft} {b : Block} {position unit : Nat} {indices order : List Nat}

theorem exists_writingOrder (there : ∀ i ∈ indices, ∃ t, pool.entry i = .ok t) :
    ∃ order, pool.writingOrder indices = .ok order := by
  unfold writingOrder
  split
  · exact ⟨_, rfl⟩
  · exact ⟨_, rfl⟩
  · obtain ⟨keys, hkeys⟩ := exists_mapM (l := indices)
      (f := fun index => do let t ← pool.entry index; return (t.checksum.toNat, index)) fun i hi => by
        obtain ⟨t, ht⟩ := there i hi
        exact ⟨_, bind_eq_ok.mpr ⟨t, ht, rfl⟩⟩
    exact ⟨_, bind_eq_ok.mpr ⟨keys, hkeys, rfl⟩⟩

theorem checksum_of_keys {keys : List (Nat × Nat)} (h : List.Forall₂ (fun index key => (do
      let t ← pool.entry index
      return (t.checksum.toNat, index)) = Except.ok key) indices keys) :
    ∀ key ∈ keys, ∃ t, pool.entry key.2 = .ok t ∧ key.1 = t.checksum.toNat := by
  induction h with
  | nil => exact fun _ hnone => absurd hnone List.not_mem_nil
  | cons hkey _ ih =>
    simp only [bind_eq_ok, pure_eq_ok] at hkey
    obtain ⟨t, ht, rfl⟩ := hkey
    exact List.forall_mem_cons.mpr ⟨⟨t, ht, rfl⟩, ih⟩

/-- No text is written twice. -/
theorem nodup_writingOrder (h : pool.writingOrder indices = .ok order) : order.Nodup := by
  unfold writingOrder at h
  split at h
  · cases h
    exact List.nodup_nil
  · cases h
    exact List.nodup_singleton _
  · simp only [bind_eq_ok, pure_eq_ok] at h
    obtain ⟨keys, hkeys, rfl⟩ := h
    have hperm := Sorting.sortBy_perm Sorting.lexLe keys
    have hkey := checksum_of_keys (mapM_eq_ok hkeys)
    refine Sorting.nodup_dropRepeats (Sorting.pairwise_sortBy_lexLe keys) fun a ha b hb heq => ?_
    obtain ⟨t, ht, hta⟩ := hkey a (hperm.mem_iff.mp ha)
    obtain ⟨s, hs, hsb⟩ := hkey b (hperm.mem_iff.mp hb)
    rw [heq, hs] at ht
    rw [hta, hsb, Except.ok.inj ht]

/-- Whether some texts can be written into the open block: it has no limit, and none of their references means
something yet. -/
structure Writable (pool : TextPool) (order : List Nat) (unit : Nat) (b : Block) (d : Draft) : Prop where
  valid : d.Valid
  free : b.limit = none
  stands : ∃ position, d.Stands b position
  current : d.currentUnit = some unit
  known : ∀ t ∈ pool.entries, t.reference.id < d.supply.next
  unnamed : ∀ t ∈ pool.entries, ∀ b ∈ d.registered, b.reference ≠ t.reference
  once : (pool.entries.map (·.reference)).Nodup
  there : ∀ i ∈ order, ∃ t, pool.entry i = .ok t
  unmarked : ∀ i ∈ order, ∀ t, pool.entry i = .ok t → ¬ d.MarkedIn unit t.reference

/-- What the entries of a pool differ in tells their indices. -/
theorem index_of_key {α : Type} {key : PooledText → α} (once : (pool.entries.map key).Nodup) {i j : Nat}
    {s t : PooledText} (hi : pool.entry i = .ok s) (hj : pool.entry j = .ok t) (same : key s = key t) : i = j := by
  have hs := indexed_eq_ok.mp hi
  have ht := indexed_eq_ok.mp hj
  have hlt := (List.getElem?_eq_some_iff.mp hs).1
  refine (List.getElem?_inj (by rwa [List.length_map]) once).mp ?_
  rw [List.getElem?_map, List.getElem?_map, hs, ht, Option.map_some, Option.map_some, same]

/-- A text can be written. -/
theorem Writable.exists_writeEntry {i : Nat} (h : pool.Writable (i :: order) unit b d) (new : i ∉ order) :
    ∃ d', pool.writeEntry d i = .ok d' ∧ pool.Writable order unit b d' ∧
      d.Moves (· = d.encoding) d' ∧ (∃ marks, d.Adds d' [] marks) ∧ d'.unopened = d.unopened := by
  obtain ⟨t, ht⟩ := h.there i List.mem_cons_self
  have hmem : t ∈ pool.entries := List.mem_of_getElem? (indexed_eq_ok.mp ht)
  have hroom : ∀ n, ∀ l ∈ b.limit, n ≤ l := fun n l hl => by
    rw [h.free] at hl
    cases hl
  obtain ⟨position, hstands⟩ := h.stands
  obtain ⟨d₁, hmark, h₁⟩ := hstands.mark h.current
    (fun block hblock => h.unnamed t hmem block.registered (List.mem_map_of_mem hblock))
    (h.unmarked i List.mem_cons_self t ht)
  obtain ⟨d₂, hbytes, h₂⟩ := h₁.append (c := t.bytes) (hroom _)
  obtain ⟨d', hzero, h'⟩ := h₂.write (s := .u8 0) (Nat.mod_one _) (hroom _)
  have hmove : Draft.Moves (· = d.encoding) d d₁ := .single (Draft.mark_move hmark (h.known t hmem))
  have hvalid₁ := h.valid.moves hmove
  have happends : d₁.Appends d' := .trans (.single ⟨_, hbytes⟩) (Draft.write_appends hzero)
  have hadds := (Draft.mark_adds h.valid hmark).trans (happends.adds hvalid₁)
  have hmoves : Draft.Moves (· = d.encoding) d₁ d' := happends.moves
  have hregistered : d'.registered = d.registered := happends.registered.trans (Draft.mark_registered hmark)
  refine ⟨d', ?_, ⟨hvalid₁.moves hmoves, h.free, ⟨_, h'⟩, hadds.currentUnit.trans h.current,
    fun s hs => ?_, hregistered ▸ h.unnamed, h.once,
    fun j hj => h.there j (List.mem_cons_of_mem _ hj), fun j hj s hs hmarked => ?_⟩, hmove.trans hmoves,
    ⟨_, hadds⟩, happends.unopened.trans (Draft.mark_unopened hmark)⟩
  · unfold writeEntry
    simp only [bind_eq_ok]
    exact ⟨t, ht, d₁, hmark, d₂, hbytes, hzero⟩
  · exact Nat.lt_of_lt_of_le (h.known s hs) (Nat.le_trans hmove.supply_le hmoves.supply_le)
  · rcases hadds.marked unit s.reference hmarked with hold | ⟨-, hnew⟩
    · exact h.unmarked j (List.mem_cons_of_mem _ hj) s hs hold
    · rw [List.append_nil, List.mem_singleton] at hnew
      exact new (index_of_key h.once hs ht hnew ▸ hj)

/-- Different texts can be written one after another. -/
theorem Writable.exists_writeEntries (h : pool.Writable order unit b d) (nodup : order.Nodup) :
    ∃ d', order.foldlM pool.writeEntry d = .ok d' ∧ pool.Writable [] unit b d' ∧
      d.Moves (· = d.encoding) d' ∧ (∃ marks, d.Adds d' [] marks) ∧ d'.unopened = d.unopened := by
  induction order generalizing d with
  | nil => exact ⟨d, rfl, h, .refl, ⟨[], .refl d⟩, rfl⟩
  | cons i order ih =>
    obtain ⟨hnew, hrest⟩ := List.nodup_cons.mp nodup
    obtain ⟨d₁, hfirst, h₁, hmoves, ⟨marks, hadds⟩, hunopened⟩ := h.exists_writeEntry hnew
    obtain ⟨d', hall, h', hmoves', ⟨marks', hadds'⟩, hunopened'⟩ := ih h₁ hrest
    exact ⟨d', List.foldlM_cons.trans (bind_eq_ok.mpr ⟨d₁, hfirst, hall⟩), h',
      hmoves.trans (hmoves.encoding_eq rfl ▸ hmoves'), ⟨marks ++ marks', hadds.trans hadds'⟩,
      hunopened'.trans hunopened⟩

end TextPool

namespace Packing

variable {m : Model} {registry : Registry} {p p' : Packer} {top first unit : Nat}
  {allowed : CustomStruct → Prop} {textBlock : Reference}

/-- When all blocks are filled the texts can be written, and then every slot refers to something that is
there. -/
theorem Filling.exists_fillBlock (h : Filling m top unit textBlock [] p) (blocks : p.blocks = [])
    (once : (m.texts.entries.map (·.reference)).Nodup) :
    ∃ d, m.texts.fillBlock p.draft textBlock p.texts = .ok d ∧ d.currentBlock = none ∧
      d.currentUnit = some unit ∧ d.unopened = [] ∧ d.registered = p.draft.registered ∧
      ∀ u target, d.RefersIn u target → d.MeansIn u target := by
  obtain ⟨order, horder⟩ := TextPool.exists_writingOrder h.texts
  -- The block of the texts is the only one that has not been opened.
  have hwaits : textBlock ∈ p.draft.unopened := by
    rw [h.unopened]
    exact List.mem_append_left _ List.mem_cons_self
  obtain ⟨d₁, hopen, b, hb, hreference, hstands⟩ := Draft.exists_openBlock h.valid h.closed h.current hwaits
  obtain rfl := h.valid.eq_of_registered hb h.text hreference
  have hopened : Pending m ([] ++ []) { p with draft := d₁ } := h.toPending.openBlock hopen
  have hcurrent : d₁.currentUnit = some unit := (Draft.openBlock_opened hopen).1.currentUnit.trans h.current
  have hwritable : m.texts.Writable order unit ⟨textBlock, 1, none, none⟩ d₁ :=
    { valid := hopened.valid
      free := rfl
      stands := ⟨0, hstands⟩
      current := hcurrent
      known := hopened.known
      unnamed := hopened.unnamed
      once := once
      there := fun i hi => h.texts i ((TextPool.mem_writingOrder horder i).mp hi)
      unmarked := fun i _ t _ => hopened.unmarked unit hcurrent t.reference }
  obtain ⟨d₂, htexts, h₂, hmoves, ⟨marks, hadds⟩, hunopened⟩ :=
    hwritable.exists_writeEntries (TextPool.nodup_writingOrder horder)
  obtain ⟨stop, hstands₂⟩ := h₂.stands
  obtain ⟨d, hclose⟩ := hstands₂.closeBlock (show alignUp stop 1 = .ok stop from rfl)
  have hfill : m.texts.fillBlock p.draft textBlock p.texts = .ok d := by
    unfold TextPool.fillBlock
    simp only [bind_eq_ok]
    exact ⟨order, horder, d₁, hopen, d₂, htexts, hclose⟩
  have hadds' := hadds.trans (Draft.closeBlock_adds hclose)
  refine ⟨d, hfill, (Draft.closeBlock_blocks hclose).2, hadds'.currentUnit.trans hcurrent, ?_,
    TextPool.fillBlock_registered hfill, fun u target hrefers => ?_⟩
  · rw [Draft.unopened_eq (Draft.closeBlock_blocks hclose).1, hunopened]
    exact hopened.unopened.trans (List.map_eq_nil_iff.mpr blocks)
  · have hextends : d₁.Extends d := hmoves.extends.trans (Draft.closeBlock_closed hclose).moves.extends
    have hmarked := (TextPool.fillBlock_marked h.valid h.current h.known hfill).2
    -- A site refers to a block that means something already, or to a text that has just got its mark.
    rcases hadds'.refers u target hrefers with hold | ⟨-, hnone⟩
    · rcases hopened.refers u target hold with hmeans | ⟨hunit, hwaits | ⟨i, hi, t, ht, rfl⟩⟩
      · exact hmeans.mono hextends
      · rw [hopened.unopened, blocks] at hwaits
        exact absurd hwaits List.not_mem_nil
      · obtain ⟨t', ht', block, hblock, body, hbody, hin, mark, hmark, href, -⟩ := hmarked i hi
        obtain rfl := Except.ok.inj (ht.symm.trans ht')
        have hu := Option.some.inj (hcurrent.symm.trans hunit)
        exact ⟨block, hblock, body, hbody, hin.trans hu, Or.inr ⟨mark, hmark, href⟩⟩
    · exact absurd hnone List.not_mem_nil

/-! ### Data units -/

/-- Whether the packer has settled the data units so far, and those that it has met are to be packed. -/
structure Settled (m : Model) (top : Nat) (p : Packer) : Prop where
  settled : p.draft.Settled
  unnamed : ∀ text ∈ m.texts.entries, ∀ b ∈ p.draft.registered, b.reference ≠ text.reference
  roots : ∀ j ∈ p.units, ∃ root, m.RootOf j root ∧ m.Packs top root

/-- A data unit that is opened with a block for its texts leaves nothing pending but that block. -/
theorem Settled.openUnit (settled : Settled m top p) (between : Between m p) {signature : Digest}
    (fresh : ∀ u ∈ p.draft.units, u.signature ≠ signature) {d d' : Draft}
    (opened : ({ p.draft with units := p.draft.units ++ [⟨signature, none⟩] } : Draft).openUnit
      p.draft.units.length = .ok d) (texts : d.newBlock 1 none = .ok (textBlock, d')) :
    Pending m [textBlock] { p with draft := d' } ∧ d'.currentUnit = some p.draft.units.length ∧
      d'.currentBlock = none ∧ ⟨textBlock, 1, none, none⟩ ∈ d'.registered := by
  obtain ⟨hmoves, -, -, hcurrent⟩ := openUnit_fresh fresh opened
  have hstate := Draft.openUnit_eq_ok opened
  have hblocks : d.blocks = p.draft.blocks := by rw [hstate]
  have hbegins := Draft.newBlock_continues texts (by decide)
  have hadds := Draft.newBlock_adds texts
  have hregistered : d'.registered = p.draft.registered ++ [⟨textBlock, 1, none, none⟩] := by
    rw [← show d.registered = p.draft.registered by rw [Draft.registered, hblocks]; rfl]
    exact Draft.newBlock_registered texts
  have hvalid : d'.Valid := (between.valid.moves hmoves).moves hbegins.moves
  have hextends : p.draft.Extends d' := hmoves.extends.trans hbegins.moves.extends
  -- Opening a unit and registering a block writes no bodies.
  have hbody : ∀ body, d.HasBody body → p.draft.HasBody body := by
    intro body hhas
    unfold Draft.HasBody at hhas ⊢
    rwa [← hblocks]
  have hcurrent' := hbegins.currentUnit.trans hcurrent
  refine ⟨⟨hvalid, fun text htext => ?_, ?_, fun unit target hrefers => ?_, fun unit hunit r hmarked => ?_,
    fun text htext b hb => ?_, fun index hindex => ?_⟩, hcurrent', ?_, ?_⟩
  · exact Nat.lt_of_lt_of_le (between.known text htext) (Nat.le_trans hmoves.supply_le hbegins.moves.supply_le)
  · show d'.unopened = _
    rw [Draft.newBlock_unopened texts, Draft.unopened_eq hblocks, settled.settled.unopened, between.blocks]
    rfl
  · left
    rcases hadds.refers unit target hrefers with ⟨body, hhas, hrest⟩ | ⟨-, hnone⟩
    · exact (settled.settled.means unit target ⟨body, hbody body hhas, hrest⟩).mono hextends
    · exact absurd hnone List.not_mem_nil
  · -- The data unit is new, so nothing has been marked in it.
    obtain rfl := Option.some.inj (hcurrent'.symm.trans hunit)
    rcases hadds.marked _ r hmarked with ⟨body, hhas, hin, -⟩ | ⟨-, hnone⟩
    · exact absurd hin (Nat.ne_of_lt ((hbody body hhas).valid between.valid).registered)
    · exact absurd hnone List.not_mem_nil
  · rw [show ({ p with draft := d' } : Packer).draft.registered = d'.registered from rfl, hregistered] at hb
    rcases List.mem_append.mp hb with hb | hb
    · exact settled.unnamed text htext b hb
    · obtain rfl := List.mem_singleton.mp hb
      intro heq
      have hfresh := Draft.newBlock_reference texts
      have hsupply : d.supply.next = p.draft.supply.next := by rw [hstate]
      have hknown := between.known text htext
      rw [← heq, hfresh, hsupply] at hknown
      exact absurd hknown (Nat.lt_irrefl _)
  · rw [between.texts] at hindex
    exact absurd hindex List.not_mem_nil
  · rw [Draft.newBlock_currentBlock texts, hstate]
    exact settled.settled.closed
  · rw [hregistered]
    exact List.mem_append_right _ (List.mem_singleton_self _)

variable (registry) in
/-- The data unit of a row can be packed if the draft has none of its signature. -/
theorem exists_packUnit (packable : Packable m allowed first top) {i root : Nat} {signature : Digest} {row : Row}
    (hrow : m.row i = .ok row) (hvalue : row.value = .dataUnit signature) (hstart : row.start = some root)
    (packs : m.Packs top root) (between : Between m p) (settled : Settled m top p)
    (fresh : ∀ u ∈ p.draft.units, u.signature ≠ signature) :
    ∃ p', packUnit m registry p i = .ok p' ∧ Settled m top p' := by
  have hunit? : row.value.dataUnit? = some signature := by rw [hvalue]; rfl
  have howns := packable.ownsBlock packs
  -- The data unit is opened, with a block for its texts.
  obtain ⟨d₂, hopen⟩ : ∃ d₂, ({ p.draft with units := p.draft.units ++ [⟨signature, none⟩] } : Draft).openUnit
      p.draft.units.length = .ok d₂ := by
    unfold Draft.openUnit
    simp only [between.closed, refuse_if_eq_ok, pure_eq_ok]
    refine ⟨_, ?_, rfl⟩
    rw [List.length_append, List.length_singleton]
    omega
  obtain ⟨⟨textBlock, d₃⟩, htextBlock, -⟩ := d₂.exists_newBlock (show isPowerOfTwo 1 = true by decide) none
  obtain ⟨hpending₃, hcurrent₃, hclosed₃, htext₃⟩ := settled.openUnit between fresh hopen htextBlock
  -- Its root object's block is the first that is put off.
  obtain ⟨rootBlock, p₄, hdefer, -⟩ := exists_deferBlock packable packs { p with draft := d₃ }
  obtain ⟨alignment, size, hword, hnew, hblocks₄, hknown₄, -⟩ := deferBlock_eq_ok hdefer howns
  have hpending₄ := (hpending₃.deferBlock howns hdefer).1
  have hcurrent₄ := (Draft.newBlock_continues hnew hword).currentUnit.trans hcurrent₃
  obtain ⟨d₅, hroot⟩ : ∃ d₅, p₄.draft.setRoot rootBlock = .ok d₅ := by
    unfold Draft.setRoot
    exact ⟨_, bind_eq_ok.mpr ⟨_, Draft.requireUnit_eq_ok.mpr hcurrent₄, rfl⟩⟩
  have hmove₅ : Draft.Move (· = p₄.draft.encoding) p₄.draft d₅ := Draft.setRoot_move hroot hknown₄
  have hstate₅ := Draft.setRoot_eq_ok hroot
  have hfilling : Filling m top p.draft.units.length textBlock [] { p₄ with draft := d₅ } := by
    obtain ⟨unit, hunit, rfl⟩ := hstate₅
    rw [between.blocks, List.nil_append] at hblocks₄
    obtain ⟨made, new, hmade, hnewly, -, hfor⟩ := deferBlock_defers howns hdefer
    rw [between.blocks, List.nil_append] at hmade
    exact
      { hpending₄.write (.single hmove₅) (.of_blocks rfl rfl) rfl
          (fun _ hnone => absurd hnone List.not_mem_nil) rfl with
        current := hcurrent₄
        closed := Draft.active?_of_no_current ((Draft.newBlock_currentBlock hnew).trans hclosed₃)
        text := hnewly ▸ List.mem_append_left _ htext₃
        packs := fun e he => by
          rw [List.nil_append, hblocks₄] at he
          exact List.mem_singleton.mp he ▸ packs
        registeredFor := fun e he => by
          obtain ⟨b, hb, hrest⟩ := hfor e (hmade ▸ he)
          exact ⟨b, hnewly ▸ List.mem_append_right _ hb, hrest⟩
        roots := fun j hj => settled.roots j ((deferBlock_keeps hdefer).2 ▸ hj) }
  -- All blocks are filled, then the texts are written.
  obtain ⟨p₆, hfill, hfilling₆, hnone⟩ := exists_fillBlocks registry packable (m.size + 1) (n := 0) hfilling
    (fun _ _ => Nat.zero_le _) (by omega)
  obtain ⟨d₇, htexts, hclosed₇, hcurrent₇, hunopened₇, hregistered₇, hmeans₇⟩ :=
    hfilling₆.exists_fillBlock hnone packable.texts
  have hclose : d₇.closeUnit = .ok { d₇ with currentUnit := none } := by
    unfold Draft.closeUnit
    simp only [bind_eq_ok, Draft.requireNoBlock_eq_ok, Draft.requireUnit_eq_ok, pure_eq_ok]
    exact ⟨(), Draft.active?_of_no_current hclosed₇, _, hcurrent₇, trivial⟩
  refine ⟨{ p₆ with draft := { d₇ with currentUnit := none }, texts := [] }, ?_,
    ⟨hclosed₇, hunopened₇, hmeans₇⟩, hregistered₇ ▸ hfilling₆.unnamed, hfilling₆.roots⟩
  unfold packUnit
  simp only [hrow, hunit?, unitIndex_fresh fresh, bind_eq_ok, lift_eq_ok, Except.ok.injEq,
    exists_eq_left', pure_eq_ok, Prod.exists, Model.requireStart_eq_ok hrow]
  exact ⟨root, hstart, d₂, hopen, textBlock, d₃, htextBlock, rootBlock, p₄, hdefer, _,
    onDraft_eq_ok.mpr ⟨d₅, hroot, rfl⟩, p₆, hfill, _, onDraft_eq_ok.mpr ⟨d₇, htexts, rfl⟩, _,
    onDraft_eq_ok.mpr ⟨_, hclose, rfl⟩, rfl⟩

variable {queue later : List (Nat × Digest)}

/-- The data units of one round can be packed. -/
theorem exists_packRound (packable : Packable m allowed first top)
    (before : PackedSoFar m registry (queue ++ later) p) (units : p.units = later.map (·.1))
    (settled : Settled m top p) (roots : ∀ q ∈ queue, ∃ root, m.RootOf q.1 root ∧ m.Packs top root) :
    ∃ p', (queue.map (·.1)).foldlM (packUnit m registry) p = .ok p' ∧ Settled m top p' := by
  induction queue generalizing p later with
  | nil => exact ⟨p, rfl, settled⟩
  | cons q queue ih =>
    have hqueued : PackedSoFar m registry ((q.1, q.2) :: (queue ++ later)) p := before
    obtain ⟨root, ⟨row, s, hrow, hvalue, hstart⟩, hpacks⟩ := roots q List.mem_cons_self
    obtain ⟨row', hrow', hvalue'⟩ := before.rows q List.mem_cons_self
    obtain rfl := Except.ok.inj (hrow.symm.trans hrow')
    have hnodup := before.met.nodup_iff.mp before.once
    have hfresh : ∀ u ∈ p.draft.units, u.signature ≠ q.2 := fun u hu heq =>
      (List.nodup_append.mp hnodup).2.2 _ (List.mem_map_of_mem hu) _ List.mem_cons_self heq
    obtain ⟨p₁, hfirst, hsettled⟩ := exists_packUnit registry packable hrow hvalue' hstart hpacks
      before.toBetween settled hfresh
    obtain ⟨met, hmet, hpacked, -⟩ :=
      packUnit_packedSoFar packable.whole.fits packable.whole.objects hqueued hfirst
    rw [List.append_assoc] at hpacked
    rw [units, ← List.map_append] at hmet
    obtain ⟨p', hrest, hlast⟩ := ih hpacked hmet hsettled fun q' hq' => roots q' (List.mem_cons_of_mem _ hq')
    exact ⟨p', List.foldlM_cons.trans (bind_eq_ok.mpr ⟨p₁, hfirst, hrest⟩), hlast⟩

/-- All data units that come up can be packed. -/
theorem exists_packUnits (packable : Packable m allowed first top) (rounds : Nat)
    (before : PackedSoFar m registry queue p) (units : p.units = queue.map (·.1))
    (settled : Settled m top p) :
    ∃ p', packUnits m registry rounds p = .ok p' ∧ Settled m top p' ∧ p'.draft.currentUnit = none := by
  induction rounds generalizing p queue with
  | zero => exact ⟨p, rfl, settled, before.closed⟩
  | succ rounds ih =>
    unfold packUnits
    split
    · exact ⟨p, rfl, settled, before.closed⟩
    · have hstart : PackedSoFar m registry (queue ++ []) { p with units := [] } := by
        rw [List.append_nil]
        exact ⟨⟨before.valid, before.closed, before.blocks, before.texts, before.known⟩,
          before.packed, before.rows, before.met, before.once⟩
      have hnone : Settled m top { p with units := [] } :=
        ⟨settled.settled, settled.unnamed, fun j hj => absurd hj List.not_mem_nil⟩
      obtain ⟨p₁, hround, hsettled⟩ := exists_packRound packable hstart rfl hnone
        fun q hq => settled.roots q.1 (units ▸ List.mem_map_of_mem hq)
      obtain ⟨later, hlater, hpacked, -⟩ :=
        packRound_packedSoFar packable.whole.fits packable.whole.objects hstart rfl hround
      obtain ⟨p', hrest, hlast⟩ := ih hpacked hlater hsettled
      rw [units]
      exact ⟨p', bind_eq_ok.mpr ⟨p₁, hround, hrest⟩, hlast⟩

/-! ### Whole models -/

/-- Packing from the row of a data unit succeeds, and leaves nothing open behind. -/
theorem exists_packFrom (packable : Packable m allowed first top) {row : Row} {signature : Digest}
    (hrow : m.row top = .ok row) (hvalue : row.value = .dataUnit signature)
    (known : ∀ text ∈ m.texts.entries, text.reference.id < m.supply.next) (platform : Platform)
    (encoding : PointerEncoding) :
    ∃ d, packFrom m registry (.blank platform encoding m.supply) top = .ok d ∧ d.Settled ∧
      d.currentUnit = none := by
  have hkind := (packable.fitsRow hrow).kind_of_dataUnit hvalue
  obtain ⟨root, hroot⟩ := (packable.sturdyRow hrow).root signature hvalue
  have hrootOf : m.RootOf top root := ⟨row, signature, hrow, hvalue, hroot⟩
  have hstart := packedSoFar_blank registry platform encoding known hrow hvalue
  have hsettled : Settled m top ⟨.blank platform encoding m.supply, [top], [signature], [], []⟩ :=
    { settled := ⟨rfl, rfl, fun unit target hrefers => by
        obtain ⟨body, ⟨block, hblock, -⟩, -⟩ := hrefers
        exact absurd hblock List.not_mem_nil⟩
      unnamed := fun text _ b hb => absurd hb List.not_mem_nil
      roots := fun j hj => ⟨root, (List.mem_singleton.mp hj).symm ▸ hrootOf, .root hrootOf⟩ }
  obtain ⟨p', hpack, hlast, hclosed⟩ :=
    exists_packUnits packable (m.size + 1) hstart rfl hsettled
  refine ⟨p'.draft, ?_, hlast.settled, hclosed⟩
  unfold packFrom
  simp only [hrow, hkind, hvalue, bind_eq_ok, lift_eq_ok, refuse_if_eq_ok, pure_eq_ok, Except.ok.injEq,
    exists_eq_left']
  exact ⟨by simp [Payload.isNull], p', hpack, rfl⟩

end Packing

end ObjectPack
