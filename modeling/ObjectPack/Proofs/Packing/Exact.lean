import ObjectPack.Proofs.Draft.Register
import ObjectPack.Proofs.Packing.Unit

/-!
# Blocks that are exactly their layout

What a block looks like is computed twice: the layout adds up alignments and sizes of rows, and the
writer moves a cursor by what it writes.  Every block that is packed for a row agrees with the layout of
that row byte by byte (`BlockExact`, `packFrom_exact`).

A block is put off for a row when it is registered (`Defers`), and filled once.  Along a run of the
packer, every block with a limit is therefore either filled, and then exactly, or queued (`ExactSoFar`).
-/

namespace ObjectPack.Packing

open Outcome WriteStep

variable {m : Model} {registry : Registry} {scope scope' : Scope} {p p' p'' : Packer} {i : Nat}
  {reference : Reference} {d d' : Draft} {queue done : List (Reference × Nat)}

/-! ### Exact blocks -/

/-- Whether a body holds the rows of a range at some offsets, each as long as the layout says, zeros
between them, and nothing behind the last of them. -/
structure BodyExact (m : Model) (registry : Registry) (scope : Scope) (d : Draft) (body : Body)
    (span : Span) (starts : List Nat) : Prop where
  length : starts.length = span.length
  rows : RowsPacked m registry scope d body span.start starts
  tight : RowsTight m registry d body span.start 0 starts
  sizes : ∀ k start, starts[k]? = some start → ∃ size, m.byteSize (span.start + k) = .ok size ∧
    start + size ≤ body.size ∧ (k + 1 = starts.length → body.size = start + size)
  empty : starts = [] → body.size = 0
  /-- A custom struct has written as many bytes as it declares. -/
  structs : ∀ k start row value, starts[k]? = some start → m.row (span.start + k) = .ok row →
    row.value = .struct value → (allBytesAt d.endian start value.writes).length = value.size

/-- Whether a block agrees with the layout of row `owner`. -/
structure BlockExact (m : Model) (registry : Registry) (scope : Scope) (d : Draft) (block : Block)
    (owner : Nat) : Prop where
  alignment : m.blockAlignment owner = .ok block.alignment
  content : ∃ size body span starts, m.blockSize owner = .ok size ∧ block.limit = some size ∧
    block.body = some body ∧ m.members owner = .ok span ∧ m.memberOffsets owner = .ok starts ∧
    BodyExact m registry scope d body span starts ∧
    body.size ≤ size ∧ size < body.size + block.alignment

/-- Whether all blocks of a draft that have a limit agree with the layout of the rows that they were
made for, where the data units of the draft start with the blocks of their root objects. -/
structure ModelExact (m : Model) (registry : Registry) (d : Draft) (made : List (Reference × Nat)) :
    Prop where
  covered : ∀ block ∈ d.blocks, block.limit ≠ none → ∃ owner, (block.reference, owner) ∈ made
  exact : ∀ e ∈ made, ∃ block ∈ d.blocks, block.reference = e.1 ∧
    BlockExact m registry ⟨fun r i => (r, i) ∈ made, fun _ => True, fun _ => True⟩ d block e.2
  roots : ∀ u ∈ d.units, ∃ i row root reference, m.row i = .ok row ∧
    row.value = .dataUnit u.signature ∧ row.start = some root ∧ u.root = some reference ∧
    (reference, root) ∈ made

/-! ### Registered blocks -/

/-- Whether a block was registered for what row `owner` owns. -/
structure RegisteredFor (m : Model) (b : Block) (owner : Nat) : Prop where
  owns : m.OwnsBlock owner
  alignment : m.blockAlignment owner = .ok b.alignment
  limit : ∃ size, m.blockSize owner = .ok size ∧ b.limit = some size

/-- Whether packing has registered blocks for the rows that it has put off, and no others. -/
def Defers (m : Model) (p p' : Packer) : Prop :=
  ∃ (made : List (Reference × Nat)) (new : List Block), p'.blocks = p.blocks ++ made ∧
    p'.draft.registered = p.draft.registered ++ new ∧
    (∀ b ∈ new, ∃ owner, (b.reference, owner) ∈ made) ∧
    ∀ e ∈ made, ∃ b ∈ new, b.reference = e.1 ∧ RegisteredFor m b e.2

theorem Defers.of_eq (blocks : p'.blocks = p.blocks)
    (registered : p'.draft.registered = p.draft.registered) : Defers m p p' :=
  ⟨[], [], by rw [blocks, List.append_nil], by rw [registered, List.append_nil],
    fun b hb => absurd hb List.not_mem_nil, fun e he => absurd he List.not_mem_nil⟩

theorem Defers.trans (h : Defers m p p') (h' : Defers m p' p'') : Defers m p p'' := by
  obtain ⟨made, new, hmade, hnew, howner, hfor⟩ := h
  obtain ⟨made', new', hmade', hnew', howner', hfor'⟩ := h'
  refine ⟨made ++ made', new ++ new', by rw [hmade', hmade, List.append_assoc],
    by rw [hnew', hnew, List.append_assoc], fun b hb => ?_, fun e he => ?_⟩
  · rcases List.mem_append.mp hb with hb | hb
    · obtain ⟨owner, hmem⟩ := howner b hb
      exact ⟨owner, List.mem_append_left _ hmem⟩
    · obtain ⟨owner, hmem⟩ := howner' b hb
      exact ⟨owner, List.mem_append_right _ hmem⟩
  · rcases List.mem_append.mp he with he | he
    · obtain ⟨b, hb, hregistered⟩ := hfor e he
      exact ⟨b, List.mem_append_left _ hb, hregistered⟩
    · obtain ⟨b, hb, hregistered⟩ := hfor' e he
      exact ⟨b, List.mem_append_right _ hb, hregistered⟩

theorem deferBlock_defers (owns : m.OwnsBlock i) (h : deferBlock m p i = .ok (reference, p')) :
    Defers m p p' := by
  unfold deferBlock at h
  simp only [bind_eq_ok, pure_eq_ok, Prod.exists, Prod.mk.injEq] at h
  obtain ⟨alignment, halignment, size, hsize, r, draft, hnew, rfl, rfl⟩ := h
  refine ⟨[(r, i)], [⟨r, alignment, some size, none⟩], rfl, Draft.newBlock_registered hnew,
    fun b hb => ⟨i, ?_⟩, fun e he => ⟨_, List.mem_singleton_self _, ?_⟩⟩
  · obtain rfl := List.mem_singleton.mp hb
    exact List.mem_singleton_self _
  · obtain rfl := List.mem_singleton.mp he
    exact ⟨rfl, owns, halignment, size, hsize, rfl⟩

theorem referToBlock_defers (owns : m.OwnsBlock i) (h : referToBlock m p i = .ok p') :
    Defers m p p' := by
  unfold referToBlock at h
  simp only [bind_eq_ok, Prod.exists] at h
  obtain ⟨target, p₁, hdefer, hslot⟩ := h
  obtain ⟨d, hwrite, rfl⟩ := onDraft_eq_ok.mp hslot
  have hlast : Defers m p₁ { p₁ with draft := d } :=
    .of_eq rfl (Draft.writeReference_registered hwrite)
  exact (deferBlock_defers owns hdefer).trans hlast

/-- The slot of a collection is followed by its counts. -/
theorem writeCollection_defers (owns : m.OwnsBlock i) {count : UInt32} {p₁ : Packer}
    {counts : List WriteStep}
    (slot : (if count = 0 then p.onDraft (·.writeNull) else referToBlock m p i) = .ok p₁)
    (h : p₁.onDraft (·.performAll counts) = .ok p') : Defers m p p' := by
  obtain ⟨d, hcounts, rfl⟩ := onDraft_eq_ok.mp h
  have hlast : Defers m p₁ { p₁ with draft := d } :=
    .of_eq rfl (Draft.performAll_appends hcounts).registered
  refine .trans ?_ hlast
  split at slot
  · obtain ⟨d, hnull, rfl⟩ := onDraft_eq_ok.mp slot
    exact .of_eq rfl (Draft.writeNull_appends hnull).registered
  · exact referToBlock_defers owns slot

theorem writePresent_defers (h : writePresent m p i = .ok p') : Defers m p p' := by
  unfold writePresent at h
  obtain ⟨row, hrow, h⟩ := bind_eq_ok.mp h
  have howns : row.kind = .object ∨ row.kind = .array ∨ row.kind = .dictionary → m.OwnsBlock i :=
    fun hkind => ⟨row, hrow, hkind⟩
  cases hkind : row.kind <;> simp only [hkind, throw_ne_ok] at h
  case string =>
    simp only [bind_eq_ok, pure_eq_ok] at h
    obtain ⟨index, -, text, -, p₁, hslot, rfl⟩ := h
    obtain ⟨d, hwrite, rfl⟩ := onDraft_eq_ok.mp hslot
    exact .of_eq rfl (Draft.writeText_registered hwrite)
  case object => exact referToBlock_defers (howns (Or.inl hkind)) h
  case array =>
    obtain ⟨p₁, hslot, hcounts⟩ := ite_bind_eq_ok.mp h
    exact writeCollection_defers (howns (Or.inr (Or.inl hkind))) hslot hcounts
  case dictionary =>
    obtain ⟨p₁, hslot, hcounts⟩ := ite_bind_eq_ok.mp h
    exact writeCollection_defers (howns (Or.inr (Or.inr hkind))) hslot hcounts

theorem writeRow_defers (h : writeRow m registry p i = .ok p') : Defers m p p' := by
  obtain ⟨alignment, d₁, row, -, halign, hrow, hcases⟩ := writeRow_cases h
  have hfirst : Defers m p { p with draft := d₁ } := .of_eq rfl (Draft.align_appends halign).registered
  refine hfirst.trans ?_
  rcases hcases with ⟨steps, d₂, -, hperform, -, rfl⟩ | ⟨-, hwrite⟩
  · have hblocks : (p.behind i row d₂).blocks = p.blocks := by
      unfold Packer.behind meet
      split
      · split <;> rfl
      · rfl
    refine .of_eq hblocks ?_
    rw [behind_draft]
    exact (Draft.performAll_appends hperform).registered
  · exact writePresent_defers hwrite

theorem fillBlock_defers {owner : Nat} (h : fillBlock m registry p (reference, owner) = .ok p') :
    Defers m p p' := by
  unfold fillBlock at h
  simp only [bind_eq_ok, lift_eq_ok] at h
  obtain ⟨p₁, hopening, span, -, p₂, hrows, hclosing⟩ := h
  obtain ⟨d₁, hopen, rfl⟩ := onDraft_eq_ok.mp hopening
  obtain ⟨d₃, hclose, rfl⟩ := onDraft_eq_ok.mp hclosing
  have hfirst : Defers m p { p with draft := d₁ } := .of_eq rfl (Draft.openBlock_registered hopen)
  have hlast : Defers m p₂ { p₂ with draft := d₃ } := .of_eq rfl (Draft.closeBlock_registered hclose)
  exact (hfirst.trans (Span.foldFrom_keeps (P := Defers m _)
    (fun _ _ _ hdefers hrow => hdefers.trans (writeRow_defers hrow)) (.of_eq rfl rfl) hrows)).trans
    hlast

/-! ### Filled blocks -/

/-- Whether the block of row `owner` has been filled as the layout says, and closed. -/
def FilledExactly (m : Model) (registry : Registry) (scope : Scope) (d : Draft)
    (reference : Reference) (owner : Nat) : Prop :=
  ∃ index block body span starts, d.blocks[index]? = some block ∧ d.currentBlock ≠ some index ∧
    block.reference = reference ∧ block.body = some body ∧ m.members owner = .ok span ∧
    starts.length = span.length ∧ m.RowsPlaced span.start 0 starts body.size ∧
    RowsPacked m registry scope d body span.start starts ∧
    RowsTight m registry d body span.start 0 starts

/-- A closed block stays exact. -/
theorem FilledExactly.mono {owner : Nat} (h : FilledExactly m registry scope d reference owner)
    (valid : d.Valid) (wider : scope.Le scope') (moves : Draft.Moves (· = d.encoding) d d') :
    FilledExactly m registry scope' d' reference owner := by
  obtain ⟨index, block, body, span, starts, hfound, hclosed, hreference, hbody, hmembers, hlength,
    hplaced, hpacked, htight⟩ := h
  have hinside := (valid.bodies block (List.mem_of_getElem? hfound) body hbody).inside
  obtain ⟨hfound', hclosed'⟩ := moves.block_stays hfound (by rw [hbody]; rfl) hclosed
  exact ⟨index, block, body, span, starts, hfound', hclosed', hreference, hbody, hmembers, hlength,
    hplaced, hpacked.mono wider moves (.refl body) hinside,
    htight.mono moves (.refl body) rfl hinside⟩

/-- A block that is filled is exact when it is closed. -/
theorem fillBlock_exact (fits : ∀ i row, m.row i = .ok row → row.Fits) {owner size unit : Nat}
    (owns : m.OwnsBlock owner) (sized : m.blockSize owner = .ok size) (valid : p.draft.Valid)
    (current : p.draft.currentUnit = some unit)
    (known : ∀ text ∈ m.texts.entries, text.reference.id < p.draft.supply.next)
    (h : fillBlock m registry p (reference, owner) = .ok p') : p.draft.Continues p'.draft ∧
      Leads m p p' ∧ FilledExactly m registry p'.scope p'.draft reference owner := by
  obtain ⟨span, starts, hmembers, hlength, stop, hplaced⟩ := (Model.offsets_of_blockSize owns sized).1
  obtain ⟨index, body, p₁, d', hopened, hcontinues, hleads, -, rfl, hpacked, htight, hclose, rfl⟩ :=
    fillBlock_cases fits hmembers hlength hplaced valid current known h
  have hvalid₁ := valid.moves hcontinues.moves
  have hclosed := Draft.closeBlock_closed hclose
  obtain ⟨hblocks, hnone⟩ := Draft.closeBlock_blocks hclose
  have hinside := hopened.inside hvalid₁
  refine ⟨hcontinues.trans hclosed, hleads.trans (.of_eq rfl (List.prefix_refl _) rfl rfl), ?_⟩
  obtain ⟨block, hactive, hreference⟩ := hopened
  obtain ⟨-, hfound, hbody⟩ := Draft.active?_eq_some.mp hactive
  refine ⟨index, block, body, span, starts, ?_, fun hopen => ?_, hreference, hbody, hmembers, hlength,
    hplaced, ?_, htight.mono hclosed.moves (.refl body) rfl hinside⟩
  · show d'.blocks[index]? = some block
    rw [hblocks]
    exact hfound
  · have hsome : d'.currentBlock = some index := hopen
    rw [hnone] at hsome
    cases hsome
  · exact hpacked.mono ⟨fun _ _ h => h, fun _ h => h, fun _ h => h⟩ hclosed.moves (.refl body) hinside

/-! ### Runs of the packer -/

/-- What a row may refer to where all blocks stand in a list. -/
def madeScope (made : List (Reference × Nat)) : Scope :=
  ⟨fun r i => (r, i) ∈ made, fun _ => True, fun _ => True⟩

theorem madeScope_le {made made' : List (Reference × Nat)} (h : made ⊆ made') :
    (madeScope made).Le (madeScope made') :=
  ⟨fun _ _ hmem => h hmem, fun _ h => h, fun _ h => h⟩

/-- Whether of all blocks that have been registered for rows some are queued, and the others filled as
the layout says. -/
structure ExactSoFar (m : Model) (registry : Registry) (queue done : List (Reference × Nat))
    (d : Draft) : Prop where
  valid : d.Valid
  known : ∀ text ∈ m.texts.entries, text.reference.id < d.supply.next
  sized : ∀ b ∈ d.registered, b.limit ≠ none → ∃ owner, (b.reference, owner) ∈ done ++ queue
  registered : ∀ e ∈ done ++ queue, ∃ b ∈ d.registered, b.reference = e.1 ∧ RegisteredFor m b e.2
  filled : ∀ e ∈ done, FilledExactly m registry (madeScope (done ++ queue)) d e.1 e.2

/-- Registering more blocks makes the queue longer. -/
theorem ExactSoFar.register (h : ExactSoFar m registry queue done d)
    (moves : d.Moves (· = d.encoding) d') {new : List Block} {made : List (Reference × Nat)}
    (registered : d'.registered = d.registered ++ new)
    (sized : ∀ b ∈ new, b.limit ≠ none → ∃ owner, (b.reference, owner) ∈ made)
    (making : ∀ e ∈ made, ∃ b ∈ new, b.reference = e.1 ∧ RegisteredFor m b e.2) :
    ExactSoFar m registry (queue ++ made) done d' := by
  have hsubset : done ++ queue ⊆ done ++ (queue ++ made) := by
    rw [← List.append_assoc]
    exact List.subset_append_left _ _
  constructor
  · exact h.valid.moves moves
  · exact fun text htext => Nat.lt_of_lt_of_le (h.known text htext) moves.supply_le
  · intro b hb hlimit
    rw [registered] at hb
    rcases List.mem_append.mp hb with hb | hb
    · obtain ⟨owner, howner⟩ := h.sized b hb hlimit
      exact ⟨owner, hsubset howner⟩
    · obtain ⟨owner, howner⟩ := sized b hb hlimit
      exact ⟨owner, List.mem_append_right _ (List.mem_append_right _ howner)⟩
  · intro e he
    rw [← List.append_assoc] at he
    rw [registered]
    rcases List.mem_append.mp he with he | he
    · obtain ⟨b, hb, hfor⟩ := h.registered e he
      exact ⟨b, List.mem_append_left _ hb, hfor⟩
    · obtain ⟨b, hb, hfor⟩ := making e he
      exact ⟨b, List.mem_append_right _ hb, hfor⟩
  · exact fun e he => (h.filled e he).mono h.valid (madeScope_le hsubset) moves

/-- What registers nothing changes nothing. -/
theorem ExactSoFar.moves (h : ExactSoFar m registry queue done d)
    (moves : d.Moves (· = d.encoding) d') (registered : d'.registered = d.registered) :
    ExactSoFar m registry queue done d' := by
  have hnothing : d'.registered = d.registered ++ [] := by rw [registered, List.append_nil]
  have hkept : ExactSoFar m registry (queue ++ []) done d' := h.register moves hnothing
    (fun b hb => absurd hb List.not_mem_nil) (fun e he => absurd he List.not_mem_nil)
  rwa [List.append_nil] at hkept

/-- Blocks that are put off are queued. -/
theorem ExactSoFar.defers (h : ExactSoFar m registry (queue ++ p.blocks) done p.draft)
    (moves : p.draft.Moves (· = p.draft.encoding) p'.draft) (defers : Defers m p p') :
    ExactSoFar m registry (queue ++ p'.blocks) done p'.draft := by
  obtain ⟨made, new, hmade, hnew, howner, hfor⟩ := defers
  rw [hmade, ← List.append_assoc]
  exact h.register moves hnew (fun b hb _ => howner b hb) hfor

/-- The first block of the queue is filled. -/
theorem fillBlock_exactSoFar (fits : ∀ i row, m.row i = .ok row → row.Fits) {e : Reference × Nat}
    {unit : Nat} (before : ExactSoFar m registry (e :: queue ++ p.blocks) done p.draft)
    (current : p.draft.currentUnit = some unit) (h : fillBlock m registry p e = .ok p') :
    p.draft.Continues p'.draft ∧
      ExactSoFar m registry (queue ++ p'.blocks) (done ++ [e]) p'.draft := by
  obtain ⟨b, -, -, hfor⟩ := before.registered e (List.mem_append_right _ List.mem_cons_self)
  obtain ⟨size, hsize, -⟩ := hfor.limit
  obtain ⟨hcontinues, hleads, hfilled⟩ :=
    fillBlock_exact fits hfor.owns hsize before.valid current before.known h
  have hqueued := before.defers hcontinues.moves (fillBlock_defers h)
  have hlist : done ++ (e :: queue ++ p'.blocks) = done ++ [e] ++ (queue ++ p'.blocks) := by
    rw [List.cons_append, List.append_assoc, List.singleton_append]
  refine ⟨hcontinues, hqueued.valid, hqueued.known, hlist ▸ hqueued.sized, hlist ▸ hqueued.registered,
    fun e' he' => ?_⟩
  rcases List.mem_append.mp he' with hold | hnew
  · exact hlist ▸ hqueued.filled e' hold
  · obtain rfl := List.mem_singleton.mp hnew
    refine hfilled.mono hqueued.valid ⟨fun r i hmem => ?_, fun _ _ => trivial, fun _ _ => trivial⟩ .refl
    exact List.mem_append_right _ (List.mem_append_right _ hmem)

theorem fillAll_exactSoFar (fits : ∀ i row, m.row i = .ok row → row.Fits) {unit : Nat}
    (before : ExactSoFar m registry (queue ++ p.blocks) done p.draft)
    (current : p.draft.currentUnit = some unit)
    (h : queue.foldlM (fillBlock m registry) p = .ok p') : p.draft.Continues p'.draft ∧
      ExactSoFar m registry p'.blocks (done ++ queue) p'.draft := by
  induction queue generalizing p done with
  | nil =>
    cases h
    rw [List.append_nil]
    exact ⟨.refl _, before⟩
  | cons e queue ih =>
    rw [List.foldlM_cons, bind_eq_ok] at h
    obtain ⟨p₁, hfirst, hrest⟩ := h
    obtain ⟨hcontinues, hexact⟩ := fillBlock_exactSoFar fits before current hfirst
    obtain ⟨hcontinues', hexact'⟩ := ih hexact (hcontinues.currentUnit.trans current) hrest
    rw [List.append_assoc, List.singleton_append] at hexact'
    exact ⟨hcontinues.trans hcontinues', hexact'⟩

/-- Round after round, all blocks that come up are filled. -/
theorem fillBlocks_exactSoFar (fits : ∀ i row, m.row i = .ok row → row.Fits) {rounds unit : Nat}
    (before : ExactSoFar m registry p.blocks done p.draft)
    (current : p.draft.currentUnit = some unit) (h : fillBlocks m registry rounds p = .ok p') :
    p.draft.Continues p'.draft ∧ p'.blocks = [] ∧
      ∃ done', done ++ p.blocks ⊆ done' ∧ ExactSoFar m registry [] done' p'.draft := by
  replace h := fillRounds_of_fillBlocks h
  induction h generalizing done with
  | done hnone =>
    exact ⟨.refl _, hnone, done, by rw [hnone, List.append_nil]; exact List.Subset.refl _, hnone ▸ before⟩
  | @round p p₁ q _ hround _ ih =>
    obtain ⟨hcontinues, hexact⟩ := fillAll_exactSoFar (p := { p with blocks := [] }) fits
      (by rw [List.append_nil]; exact before) current hround
    obtain ⟨hcontinues', hnone, done', hsubset, hexact'⟩ := ih hexact (hcontinues.currentUnit.trans current)
    exact ⟨hcontinues.trans hcontinues', hnone, done',
      List.Subset.trans (List.subset_append_left _ _) hsubset, hexact'⟩

/-! ### Data units -/

/-- Whether all data units of a draft start with the blocks of their root objects. -/
def Rooted (m : Model) (d : Draft) (done : List (Reference × Nat)) : Prop :=
  ∀ u ∈ d.units, ∃ i row root reference, m.row i = .ok row ∧ row.value = .dataUnit u.signature ∧
    row.start = some root ∧ u.root = some reference ∧ (reference, root) ∈ done

theorem Rooted.mono {done' : List (Reference × Nat)} (h : Rooted m d done) (more : done ⊆ done') :
    Rooted m d done' := by
  intro u hu
  obtain ⟨i, row, root, reference, hrow, hvalue, hstart, hroot, hmem⟩ := h u hu
  exact ⟨i, row, root, reference, hrow, hvalue, hstart, hroot, more hmem⟩

/-- The data unit of a signature is the only one that may be new. -/
theorem unitIndex_units (d : Draft) (signature : Digest) :
    (∃ u, (d.unitIndex signature).2.units[(d.unitIndex signature).1]? = some u ∧
      u.signature = signature) ∧
    ∀ k u, k ≠ (d.unitIndex signature).1 → (d.unitIndex signature).2.units[k]? = some u →
      u ∈ d.units := by
  unfold Draft.unitIndex
  split
  · rename_i index hindex
    obtain ⟨hlt, hfinds, -⟩ := List.findIdx?_eq_some_iff_getElem.mp hindex
    exact ⟨⟨d.units[index], List.getElem?_eq_getElem hlt, of_decide_eq_true hfinds⟩,
      fun k u _ hu => List.mem_of_getElem? hu⟩
  · refine ⟨⟨⟨signature, none⟩, ?_, rfl⟩, fun k u hk hu => ?_⟩
    · exact List.getElem?_concat_length
    · have hne : k ≠ d.units.length := hk
      have hfound : (d.units ++ [(⟨signature, none⟩ : DraftUnit)])[k]? = some u := hu
      have hlt := (List.getElem?_eq_some_iff.mp hfound).1
      rw [List.length_append, List.length_singleton] at hlt
      rw [List.getElem?_append_left (by omega)] at hfound
      exact List.mem_of_getElem? hfound

/-- Opening a data unit and registering its first two blocks: that of its texts, which has no limit,
and that of its root object. -/
theorem openUnit_exactSoFar {root : Nat} {signature : Digest} {d₁ d₂ d₃ : Draft}
    {textBlock rootBlock : Reference} (before : ExactSoFar m registry [] done p.draft)
    (blocks : p.blocks = []) (owns : m.OwnsBlock root)
    (opened : (p.draft.unitIndex signature).2.openUnit (p.draft.unitIndex signature).1 = .ok d₁)
    (texts : d₁.newBlock 1 none = .ok (textBlock, d₂))
    (deferred : deferBlock m { p with draft := d₂ } root = .ok (rootBlock, p'))
    (rooted : p'.draft.setRoot rootBlock = .ok d₃) :
    ExactSoFar m registry p'.blocks done d₃ ∧ p'.blocks = [(rootBlock, root)] ∧
      d₃.currentUnit = some (p.draft.unitIndex signature).1 ∧
      d₃.units = (p.draft.unitIndex signature).2.units.modify (p.draft.unitIndex signature).1
        ({ · with root := some rootBlock }) := by
  have hindex : p.draft.Moves (· = p.draft.encoding) (p.draft.unitIndex signature).2 :=
    Draft.unitIndex_moves _ _
  have hopen : Draft.Move (· = p.draft.encoding) _ d₁ := Draft.openUnit_move opened
  have hmoves₁ : p.draft.Moves (· = p.draft.encoding) d₁ := hindex.tail hopen
  obtain rfl := Draft.openUnit_eq_ok opened
  have hfirst := before.moves hmoves₁ (Draft.unitIndex_registered p.draft signature)
  have htexts := Draft.newBlock_continues texts (by decide)
  have hsecond : ExactSoFar m registry ([] ++ []) done d₂ := hfirst.register htexts.moves
    (Draft.newBlock_registered texts)
    (fun b hb hlimit => absurd (List.mem_singleton.mp hb ▸ rfl) hlimit)
    (fun e he => absurd he List.not_mem_nil)
  obtain ⟨alignment, size, hword, hnew, hblocks, hknown, -⟩ := deferBlock_eq_ok deferred owns
  have hroot := Draft.newBlock_continues hnew hword
  -- The root block is put off: it is registered, and it is due to be filled.
  have hqueued : ExactSoFar m registry ([] ++ p'.blocks) done p'.draft := by
    refine ExactSoFar.defers (p := { p with draft := d₂ }) ?_ hroot.moves
      (deferBlock_defers owns deferred)
    rw [blocks]
    exact hsecond
  have hmove : Draft.Move (· = p'.draft.encoding) p'.draft d₃ := Draft.setRoot_move rooted hknown
  obtain ⟨unit, hunit, rfl⟩ := Draft.setRoot_eq_ok rooted
  have hcontinues := htexts.trans hroot
  rw [hcontinues.currentUnit] at hunit
  cases hunit
  refine ⟨hqueued.moves (.single hmove) rfl, ?_, hcontinues.currentUnit, ?_⟩
  · rw [hblocks, blocks]
    rfl
  · show p'.draft.units.modify _ _ = _
    rw [hcontinues.units]

/-- Packing a data unit leaves exact blocks behind. -/
theorem packUnit_exactSoFar (fits : ∀ i row, m.row i = .ok row → row.Fits)
    (objects : ∀ i row root, m.row i = .ok row → row.kind = .dataUnit → row.start = some root →
      m.OwnsBlock root) (before : ExactSoFar m registry [] done p.draft) (blocks : p.blocks = [])
    (roots : Rooted m p.draft done) (h : packUnit m registry p i = .ok p') :
    p'.blocks = [] ∧ ∃ done', ExactSoFar m registry [] done' p'.draft ∧ Rooted m p'.draft done' := by
  unfold packUnit at h
  obtain ⟨row, hrow, h⟩ := bind_eq_ok.mp h
  rw [lift_eq_ok] at hrow
  split at h
  · simp only [throw_ne_ok] at h
  · rename_i signature hunit?
    have hvalue : row.value = .dataUnit signature := by
      cases hvalue : row.value <;> rw [hvalue] at hunit? <;> cases hunit?
      rfl
    have hkind := (fits i row hrow).kind_of_dataUnit hvalue
    simp only [bind_eq_ok, lift_eq_ok, pure_eq_ok, Prod.exists, Model.requireStart_eq_ok hrow] at h
    obtain ⟨root, hstart, d₁, hopen, textBlock, d₂, htextBlock, rootBlock, p₃, hdefer, p₄, hroot, p₅,
      hfill, p₆, htexts, p₇, hclose, rfl⟩ := h
    obtain ⟨d₄, hrooted, rfl⟩ := onDraft_eq_ok.mp hroot
    obtain ⟨d₆, hwritten, rfl⟩ := onDraft_eq_ok.mp htexts
    obtain ⟨d₇, hclosed, rfl⟩ := onDraft_eq_ok.mp hclose
    -- What has been packed stays exact: first with the root block put off, then with all blocks filled.
    obtain ⟨hexact₄, hblocks₄, hcurrent₄, hunits₄⟩ := openUnit_exactSoFar before blocks
      (objects i row root hrow hkind hstart) hopen htextBlock hdefer hrooted
    obtain ⟨hcontinues₅, hnone, done', hsubset, hexact₅⟩ :=
      fillBlocks_exactSoFar (p := { p₃ with draft := d₄ }) fits hexact₄ hcurrent₄ hfill
    obtain ⟨hcontinues₆, -⟩ := TextPool.fillBlock_marked hexact₅.valid
      (hcontinues₅.currentUnit.trans hcurrent₄) hexact₅.known hwritten
    have hlast : Draft.Move (· = d₆.encoding) d₆ d₇ := Draft.closeUnit_move hclosed
    obtain rfl := Draft.closeUnit_eq_ok hclosed
    have hexact₆ := hexact₅.moves hcontinues₆.moves (TextPool.fillBlock_registered hwritten)
    refine ⟨hnone, done', hexact₆.moves (.single hlast) rfl, fun u hu => ?_⟩
    have hunits : d₆.units = _ := hcontinues₆.units.trans (hcontinues₅.units.trans hunits₄)
    rw [show ({ d₆ with currentUnit := none } : Draft).units = d₆.units from rfl, hunits] at hu
    obtain ⟨k, hk⟩ := List.mem_iff_getElem?.mp hu
    obtain ⟨⟨u', hu', hsignature⟩, hothers⟩ := unitIndex_units p.draft signature
    rw [List.getElem?_modify] at hk
    by_cases hthis : (p.draft.unitIndex signature).1 = k
    · -- The data unit that has just been packed.
      rw [← hthis, hu'] at hk
      simp only [if_true, Option.map_eq_map, Option.map_some, Option.some.injEq] at hk
      rw [← hk]
      refine ⟨i, row, root, rootBlock, hrow, hsignature ▸ hvalue, hstart, rfl, hsubset ?_⟩
      refine List.mem_append_right _ ?_
      show (rootBlock, root) ∈ p₃.blocks
      rw [hblocks₄]
      exact List.mem_singleton_self _
    · simp only [if_neg hthis, id_map'] at hk
      exact roots.mono (List.Subset.trans (List.subset_append_left _ _) hsubset) u
        (hothers k u (fun heq => hthis heq.symm) hk)

/-! ### Whole models -/

/-- A block of a draft that has been filled exactly is the one that was registered. -/
theorem FilledExactly.blockExact (fits : ∀ i row, m.row i = .ok row → row.Fits) {owner : Nat}
    {b : Block} (h : FilledExactly m registry scope d reference owner) (valid : d.Valid)
    (mem : b ∈ d.registered) (named : b.reference = reference) (registered : RegisteredFor m b owner) :
    ∃ block ∈ d.blocks, block.reference = reference ∧ BlockExact m registry scope d block owner := by
  obtain ⟨index, block, body, span, starts, hfound, -, hreference, hbody, hmembers, hlength, hplaced,
    hpacked, htight⟩ := h
  have hblock := List.mem_of_getElem? hfound
  obtain ⟨other, hother, rfl⟩ := List.mem_map.mp mem
  obtain rfl : other = block := valid.eq_of_reference hother hblock (named.trans hreference.symm)
  obtain ⟨size, hsize, hlimit⟩ := registered.limit
  refine ⟨other, hblock, hreference, registered.alignment, size, body, span, starts, hsize, hlimit,
    hbody, hmembers, ?_, ⟨hlength, hpacked, htight, fun k start hk => ?_, fun hnil => ?_,
      fun k start row value hk hrow hvalue => ?_⟩, ?_⟩
  · exact Model.OffsetsOf.memberOffsets ⟨hmembers, hlength, body.size, hplaced⟩
  · obtain ⟨size', hsize', -, hstop, hlast⟩ := hplaced.byteSize.2 k start hk
    exact ⟨size', hsize', hstop, hlast⟩
  · have hextent := hplaced.extent
    rw [hnil] at hextent
    exact (Except.ok.inj hextent).symm
  · -- A custom value is written in one piece, so its row is as long as its bytes are.
    have hplain : row.plain? registry d.endian start = some (allBytesAt d.endian start value.writes) := by
      rw [Row.plain?, hvalue]
    have hkind := (fits _ row hrow).kind_of_struct hvalue
    have hsize' := htight.lengths k start row _ hk hrow hplain
    unfold Model.byteSize Row.size? at hsize'
    simp only [hrow, hkind, hvalue, bind_eq_ok, Except.ok.injEq, exists_eq_left', pure_eq_ok] at hsize'
    exact hsize'.symm
  · -- The size of the block is the extent of its rows, rounded up to its alignment.
    obtain ⟨span', extent, alignment, hmembers', hextent, halignment, hround⟩ :=
      Model.blockSize_eq_ok registered.owns hsize
    rw [hmembers] at hmembers'
    cases hmembers'
    have hstop := hplaced.extent
    rw [hlength] at hstop
    rw [Model.extent, Span.foldM, hstop] at hextent
    cases hextent
    rw [registered.alignment] at halignment
    cases halignment
    exact (alignUp_spec (valid.powers other hblock) hround).2

/-- Whatever is packed for a row agrees with the layout of the row, which is that of an object or of a collection. -/
theorem packFrom_exact_owned (fits : ∀ i row, m.row i = .ok row → row.Fits)
    (objects : ∀ i row root, m.row i = .ok row → row.kind = .dataUnit → row.start = some root →
      m.OwnsBlock root) {platform : Platform} {encoding : PointerEncoding}
    (known : ∀ text ∈ m.texts.entries, text.reference.id < m.supply.next)
    (h : packFrom m registry (.blank platform encoding m.supply) i = .ok d) :
    ∃ made, ModelExact m registry d made ∧ ∀ e ∈ made, m.OwnsBlock e.2 := by
  unfold packFrom at h
  simp only [bind_eq_ok, lift_eq_ok, refuse_if_eq_ok, pure_eq_ok] at h
  obtain ⟨row, -, -, p', hpack, rfl⟩ := h
  -- Between two data units nothing is queued.
  let P : Packer → Prop := fun p => p.blocks = [] ∧
    ∃ done, ExactSoFar m registry [] done p.draft ∧ Rooted m p.draft done
  have hround : ∀ (p p' : Packer) (units : List Nat), P p →
      units.foldlM (packUnit m registry) p = .ok p' → P p' := by
    intro p p' units hp hunits
    refine foldlM_keeps (P := P) (fun p i p' hp hunit => ?_) hp hunits
    obtain ⟨hblocks, done, hexact, hrooted⟩ := hp
    exact packUnit_exactSoFar fits objects hexact hblocks hrooted hunit
  have hrounds : ∀ (rounds : Nat) (p p' : Packer), P p → packUnits m registry rounds p = .ok p' →
      P p' := by
    intro rounds
    induction rounds with
    | zero =>
      intro p p' hp hunits
      cases hunits
      exact hp
    | succ rounds ih =>
      intro p p' hp hunits
      unfold packUnits at hunits
      split at hunits
      · cases hunits
        exact hp
      · obtain ⟨p₁, hfirst, hrest⟩ := bind_eq_ok.mp hunits
        exact ih p₁ p' (hround { p with units := [] } p₁ p.units hp hfirst) hrest
  have hblank : ExactSoFar m registry [] [] (.blank platform encoding m.supply) :=
    { valid := Draft.blank_valid platform encoding m.supply
      known := known
      sized := fun b hb => absurd hb List.not_mem_nil
      registered := fun e he => absurd he List.not_mem_nil
      filled := fun e he => absurd he List.not_mem_nil }
  have hstart : P ⟨.blank platform encoding m.supply, [], [], [], []⟩ :=
    ⟨rfl, [], hblank, fun u hu => absurd hu List.not_mem_nil⟩
  obtain ⟨-, done, hexact, hrooted⟩ := hrounds _ _ _ (by
    split
    · unfold meet
      split <;> exact hstart
    · exact hstart) hpack
  refine ⟨done, ⟨fun block hblock hlimit => ?_, fun e he => ?_, hrooted⟩, fun e he => ?_⟩
  · obtain ⟨owner, howner⟩ := hexact.sized _ (List.mem_map_of_mem hblock) hlimit
    rw [List.append_nil] at howner
    exact ⟨owner, howner⟩
  · obtain ⟨b, hb, hreference, hfor⟩ := hexact.registered e (by rwa [List.append_nil])
    have hfilled := hexact.filled e he
    rw [List.append_nil] at hfilled
    exact hfilled.blockExact fits hexact.valid hb hreference hfor
  · obtain ⟨_, -, -, hfor⟩ := hexact.registered e (by rwa [List.append_nil])
    exact hfor.owns

/-- Whatever is packed for a row agrees with the layout of the row. -/
theorem packFrom_exact (fits : ∀ i row, m.row i = .ok row → row.Fits)
    (objects : ∀ i row root, m.row i = .ok row → row.kind = .dataUnit → row.start = some root →
      m.OwnsBlock root) {platform : Platform} {encoding : PointerEncoding}
    (known : ∀ text ∈ m.texts.entries, text.reference.id < m.supply.next)
    (h : packFrom m registry (.blank platform encoding m.supply) i = .ok d) :
    ∃ made, ModelExact m registry d made :=
  (packFrom_exact_owned fits objects known h).imp fun _ => And.left

end ObjectPack.Packing
