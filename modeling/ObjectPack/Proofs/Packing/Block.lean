import ObjectPack.Proofs.Packing.Row

/-!
# Packed blocks

Filling the block of a row leaves the rows that it owns behind, each at its offset (`BlockFilled`), and
puts off the blocks that those rows refer to; when all blocks are filled, each of them refers to filled
blocks only (`fillBlocks_filled`).  A filled block stays filled, whatever is packed later.
-/

namespace ObjectPack.Packing

open Outcome

variable {m : Model} {registry : Registry} {p p' : Packer} {index i unit : Nat}
  {reference : Reference} {body : Body} {d d' : Draft}

/-- Whether rows from row `i` on are packed in a body at some offsets. -/
def RowsPacked (m : Model) (registry : Registry) (scope : Scope) (d : Draft) (body : Body) (i : Nat)
    (starts : List Nat) : Prop :=
  ∀ k start, starts[k]? = some start → ∃ row, m.row (i + k) = .ok row ∧
    row.PackedAs m registry d.endian scope (d.HoldsAt body)
      (fun offset target => (⟨offset, target, d.encoding⟩ : Site) ∈ body.sites) start (i + k)

/-- What has been packed stays. -/
theorem RowsPacked.mono {scope scope' : Scope} {body' : Body} {starts : List Nat}
    (h : RowsPacked m registry scope d body i starts) (wider : scope.Le scope')
    (moves : Draft.Moves (· = d.encoding) d d') (grows : body.GrowsTo body')
    (inside : body.start + body.size ≤ d.buffer.length) :
    RowsPacked m registry scope' d' body' i starts := by
  intro k start hk
  obtain ⟨row, hrow, hpacked⟩ := h k start hk
  refine ⟨row, hrow, ?_⟩
  rw [moves.endian_eq, moves.encoding_eq rfl]
  exact hpacked.mono wider (fun _ _ hholds => hholds.extends grows moves.extends.buffer inside)
    fun _ _ hsite => grows.mem_sites hsite

/-- Whether rows from row `i` on take the bytes behind a position of a body that the layout gives them,
with zeros between them. -/
structure RowsTight (m : Model) (registry : Registry) (d : Draft) (body : Body) (i position : Nat)
    (starts : List Nat) : Prop where
  lengths : ∀ k start row b, starts[k]? = some start → m.row (i + k) = .ok row →
    row.plain? registry d.endian start = some b → m.byteSize (i + k) = .ok b.length
  gaps : ∀ offset, position ≤ offset → offset < body.size →
    (∀ k start size, starts[k]? = some start → m.byteSize (i + k) = .ok size →
      ¬ (start ≤ offset ∧ offset < start + size)) → d.HoldsAt body offset [0]

theorem RowsTight.mono {body' : Body} {position : Nat} {starts : List Nat}
    (h : RowsTight m registry d body i position starts)
    (moves : Draft.Moves (· = d.encoding) d d') (grows : body.GrowsTo body')
    (size : body'.size = body.size) (inside : body.start + body.size ≤ d.buffer.length) :
    RowsTight m registry d' body' i position starts where
  lengths := by
    rw [moves.endian_eq]
    exact h.lengths
  gaps offset hposition hoffset hapart :=
    (h.gaps offset hposition (size ▸ hoffset) hapart).extends grows moves.extends.buffer inside

/-- One row in front of rows that are tight. -/
theorem RowsTight.cons {body₁ : Body} {position first next : Nat} {starts : List Nat} {row : Row}
    (placed : m.placeRow position i = .ok (first, next)) (hrow : m.row i = .ok row)
    (zeros : d.HoldsAt body₁ position (Bytes.zeros (first - position)))
    (length : ∀ b, row.plain? registry d.endian first = some b → first + b.length = next)
    (rest : RowsTight m registry d body₁ (i + 1) next starts) :
    RowsTight m registry d body₁ i position (first :: starts) := by
  obtain ⟨hle, size, hsize, rfl⟩ := Model.placeRow_byteSize placed
  constructor
  · rintro (_ | k) start row' b hk hrow' hplain
    · cases hk
      rw [Nat.add_zero, hrow] at hrow'
      cases hrow'
      have hlength := length b hplain
      rw [Nat.add_zero, hsize]
      exact congrArg Except.ok (by omega)
    · rw [← Nat.add_assoc, Nat.add_right_comm] at hrow' ⊢
      exact rest.lengths k start row' b hk hrow' hplain
  · intro offset hposition hoffset hapart
    by_cases hfirst : offset < first
    · -- The padding in front of the first row.
      obtain ⟨back, rfl⟩ : ∃ back, offset = position + back := ⟨offset - position, by omega⟩
      exact zeros.zero (by omega)
    · refine rest.gaps offset ?_ hoffset fun k start size' hk hsize' => ?_
      · have hnot := hapart 0 first size rfl hsize
        omega
      · rw [Nat.add_right_comm] at hsize'
        exact hapart (k + 1) start size' hk hsize'

/-- Rows are packed one after another, each where the layout places it. -/
theorem writeRows_written (fits : ∀ i row, m.row i = .ok row → row.Fits) {starts : List Nat}
    {position stop : Nat} (placed : m.RowsPlaced i position starts stop)
    (start : body.size = position) (valid : p.draft.Valid)
    (opened : p.draft.OpenAt index reference body)
    (known : ∀ text ∈ m.texts.entries, text.reference.id < p.draft.supply.next)
    (h : Span.foldFrom (writeRow m registry) starts.length i p = .ok p') : ∃ body',
    Draft.Wrote index reference p.draft body p'.draft body' ∧ Leads m p p' ∧
      body'.size = stop ∧ RowsPacked m registry p'.scope p'.draft body' i starts ∧
      RowsTight m registry p'.draft body' i position starts := by
  induction placed generalizing p body with
  | nil =>
    cases h
    refine ⟨body, .refl opened, .of_eq rfl (List.prefix_refl _) rfl rfl, start,
      (fun k start hk => by cases hk), ?_⟩
    exact
      { lengths := fun k start row b hk => by cases hk
        gaps := fun offset hposition hoffset => by omega }
  | @cons i position first next stop starts placed _ ih =>
    subst start
    obtain ⟨p₁, hfirst, hrest⟩ := Span.foldFrom_succ_eq_ok.mp h
    obtain ⟨row, body₁, hrow, hnext, hzeros, hlength, hwritten⟩ :=
      writeRow_written (fits i) valid opened known placed hfirst
    have hwrote := hwritten.wrote
    have hvalid₁ := valid.moves hwrote.moves
    obtain ⟨body₂, hwrote₂, hleads₂, hstop, hpacked₂, htight₂⟩ := ih hnext hvalid₁ hwrote.opened
      (fun text htext => Nat.lt_of_lt_of_le (known text htext) hwrote.moves.supply_le) hrest
    have hfirst : RowsPacked m registry p₁.scope p₁.draft body₁ i [first] := by
      rintro (_ | k) start hk
      · cases hk
        refine ⟨row, hrow, ?_⟩
        rw [hwrote.endian, hwrote.encoding]
        exact hwritten.packed
      · cases hk
    -- The row that has been packed first stays as it is while the others are packed.
    have hstays := hfirst.mono hleads₂.scope_le hwrote₂.moves hwrote₂.grows
      (hwrote.opened.inside hvalid₁)
    refine ⟨body₂, hwrote.trans hwrote₂, hwritten.leads.trans hleads₂, hstop, ?_, ?_⟩
    · rintro (_ | k) start hk
      · exact hstays 0 start hk
      · rw [show i + (k + 1) = i + 1 + k by omega]
        exact hpacked₂ k start hk
    · refine .cons placed hrow (hzeros.wrote hvalid₁ hwrote.opened hwrote₂) ?_ htight₂
      rw [hwrote₂.endian, hwrote.endian]
      exact hlength

/-! ### Blocks -/

/-- Whether the block of row `owner` is filled, in a data unit. -/
def BlockFilled (m : Model) (registry : Registry) (scope : Scope) (d : Draft) (unit : Nat)
    (reference : Reference) (owner : Nat) : Prop :=
  ∃ block ∈ d.blocks, block.reference = reference ∧ ∃ body ∈ block.body, body.unit = unit ∧
    ∃ span starts, m.OffsetsOf owner span starts ∧
      RowsPacked m registry scope d body span.start starts

/-- A block that is filled stays so. -/
theorem BlockFilled.mono {scope scope' : Scope} {owner : Nat}
    (h : BlockFilled m registry scope d unit reference owner) (valid : d.Valid)
    (wider : scope.Le scope') (moves : Draft.Moves (· = d.encoding) d d') :
    BlockFilled m registry scope' d' unit reference owner := by
  obtain ⟨block, hblock, hreference, body, hbody, hunit, span, starts, hoffsets, hpacked⟩ := h
  have hinside := (valid.bodies block hblock body hbody).inside
  obtain ⟨index, hindex⟩ := List.mem_iff_getElem?.mp hblock
  obtain ⟨block', body', hblock', hreference', hbody', hgrows⟩ :=
    moves.extends.blocks index block body hindex hbody
  exact ⟨block', List.mem_of_getElem? hblock', hreference'.trans hreference, body', hbody',
    hgrows.unit.trans hunit, span, starts, hoffsets, hpacked.mono wider moves hgrows hinside⟩

/-- What filling a block does: up to the moment when the block is closed, the rows that it holds are
written, and nothing else. -/
theorem fillBlock_cases (fits : ∀ i row, m.row i = .ok row → row.Fits) {owner : Nat} {span : Span}
    {starts : List Nat} {stop : Nat} (members : m.members owner = .ok span)
    (length : starts.length = span.length) (placed : m.RowsPlaced span.start 0 starts stop)
    (valid : p.draft.Valid) (current : p.draft.currentUnit = some unit)
    (known : ∀ text ∈ m.texts.entries, text.reference.id < p.draft.supply.next)
    (h : fillBlock m registry p (reference, owner) = .ok p') : ∃ index body p₁ d',
      p₁.draft.OpenAt index reference body ∧ p.draft.Continues p₁.draft ∧ Leads m p p₁ ∧
      body.unit = unit ∧ body.size = stop ∧
      RowsPacked m registry p₁.scope p₁.draft body span.start starts ∧
      RowsTight m registry p₁.draft body span.start 0 starts ∧
      p₁.draft.closeBlock = .ok d' ∧ p' = { p₁ with draft := d' } := by
  unfold fillBlock at h
  simp only [bind_eq_ok, lift_eq_ok, members, Except.ok.injEq, exists_eq_left'] at h
  obtain ⟨p₁, hopening, p₂, hrows, hclosing⟩ := h
  obtain ⟨d₁, hopen, rfl⟩ := onDraft_eq_ok.mp hopening
  obtain ⟨d₃, hclose, rfl⟩ := onDraft_eq_ok.mp hclosing
  obtain ⟨hopened, index, body, hopenAt, hempty, hunit⟩ := Draft.openBlock_opened hopen
  have hvalid₁ := valid.moves hopened.moves
  rw [Span.foldM, ← length] at hrows
  obtain ⟨body₂, hwrote, hleads, hstop, hpacked, htight⟩ :=
    writeRows_written fits placed hempty hvalid₁ hopenAt
      (fun text htext => Nat.lt_of_lt_of_le (known text htext) hopened.moves.supply_le) hrows
  have hbefore : Leads m p { p with draft := d₁ } := .of_eq rfl (List.prefix_refl _) rfl rfl
  rw [current] at hunit
  exact ⟨index, body₂, p₂, d₃, hwrote.opened, hopened.trans (hwrote.continues hvalid₁ hopenAt),
    hbefore.trans hleads, hwrote.grows.unit.trans (Option.some.inj hunit).symm, hstop, hpacked,
    htight, hclose, rfl⟩

/-- Filling a block leaves the rows behind that it holds. -/
theorem fillBlock_filled (fits : ∀ i row, m.row i = .ok row → row.Fits) {owner : Nat}
    (owned : ∃ span starts, m.OffsetsOf owner span starts) (valid : p.draft.Valid)
    (current : p.draft.currentUnit = some unit)
    (known : ∀ text ∈ m.texts.entries, text.reference.id < p.draft.supply.next)
    (h : fillBlock m registry p (reference, owner) = .ok p') : p.draft.Continues p'.draft ∧
      Leads m p p' ∧ BlockFilled m registry p'.scope p'.draft unit reference owner := by
  obtain ⟨span, starts, hoffsets⟩ := owned
  have hoffsets' := hoffsets
  obtain ⟨hmembers, hlength, stop, hplaced⟩ := hoffsets
  obtain ⟨index, body, p₁, d', hopened, hcontinues, hleads, hunit, -, hpacked, -, hclose, rfl⟩ :=
    fillBlock_cases fits hmembers hlength hplaced valid current known h
  have hclosed := Draft.closeBlock_closed hclose
  have hfilled : BlockFilled m registry p₁.scope p₁.draft unit reference owner := by
    obtain ⟨block, hactive, hreference⟩ := hopened
    obtain ⟨-, hfound, hbody⟩ := Draft.active?_eq_some.mp hactive
    exact ⟨block, List.mem_of_getElem? hfound, hreference, body, hbody, hunit, span, starts,
      hoffsets', hpacked⟩
  refine ⟨hcontinues.trans hclosed, hleads.trans (.of_eq rfl (List.prefix_refl _) rfl rfl), ?_⟩
  exact hfilled.mono (valid.moves hcontinues.moves) ⟨fun _ _ h => h, fun _ h => h, fun _ h => h⟩
    hclosed.moves

/-- Filling some blocks fills each of them. -/
theorem fillAll_filled (fits : ∀ i row, m.row i = .ok row → row.Fits)
    {blocks : List (Reference × Nat)}
    (owned : ∀ b ∈ blocks, ∃ span starts, m.OffsetsOf b.2 span starts) (valid : p.draft.Valid)
    (current : p.draft.currentUnit = some unit)
    (known : ∀ text ∈ m.texts.entries, text.reference.id < p.draft.supply.next)
    (h : blocks.foldlM (fillBlock m registry) p = .ok p') : p.draft.Continues p'.draft ∧
      Leads m p p' ∧ ∀ b ∈ blocks, BlockFilled m registry p'.scope p'.draft unit b.1 b.2 := by
  induction blocks generalizing p with
  | nil =>
    cases h
    exact ⟨.refl _, .of_eq rfl (List.prefix_refl _) rfl rfl, fun b hb => absurd hb List.not_mem_nil⟩
  | cons b blocks ih =>
    rw [List.foldlM_cons, bind_eq_ok] at h
    obtain ⟨p₁, hfirst, hrest⟩ := h
    obtain ⟨hcontinues, hleads, hfilled⟩ :=
      fillBlock_filled fits (owned b List.mem_cons_self) valid current known hfirst
    have hvalid₁ := valid.moves hcontinues.moves
    obtain ⟨hcontinues', hleads', hfilled'⟩ := ih
      (fun b hb => owned b (List.mem_cons_of_mem _ hb)) hvalid₁
      (hcontinues.currentUnit.trans current)
      (fun text htext => Nat.lt_of_lt_of_le (known text htext) hcontinues.moves.supply_le) hrest
    refine ⟨hcontinues.trans hcontinues', hleads.trans hleads', fun c hc => ?_⟩
    rcases List.mem_cons.mp hc with rfl | hc
    · exact hfilled.mono hvalid₁ hleads'.scope_le hcontinues'.moves
    · exact hfilled' c hc

/-! ### Rounds -/

/-- What is put off is filled round by round, until nothing is. -/
inductive FillRounds (m : Model) (registry : Registry) : Packer → Packer → Prop
  | done {p : Packer} (none : p.blocks = []) : FillRounds m registry p p
  | round {p p₁ q : Packer} (some : p.blocks ≠ [])
      (fills : p.blocks.foldlM (fillBlock m registry) { p with blocks := [] } = .ok p₁)
      (rest : FillRounds m registry p₁ q) : FillRounds m registry p q

theorem fillBlocks_of_nil (none : p.blocks = []) (rounds : Nat) : fillBlocks m registry rounds p = .ok p := by
  unfold fillBlocks
  rw [none]

theorem fillBlocks_succ (some : p.blocks ≠ []) (rounds : Nat) : fillBlocks m registry (rounds + 1) p =
    p.blocks.foldlM (fillBlock m registry) { p with blocks := [] } >>= fillBlocks m registry rounds := by
  conv => lhs; unfold fillBlocks
  split
  · exact absurd ‹_› some
  · rfl

theorem fillRounds_of_fillBlocks {rounds : Nat} (h : fillBlocks m registry rounds p = .ok p') :
    FillRounds m registry p p' := by
  by_cases hnone : p.blocks = []
  · rw [fillBlocks_of_nil hnone] at h
    obtain rfl := Except.ok.inj h
    exact .done hnone
  induction rounds generalizing p with
  | zero =>
    unfold fillBlocks at h
    split at h
    · exact absurd ‹_› hnone
    · cases h
  | succ rounds ih =>
    rw [fillBlocks_succ hnone] at h
    obtain ⟨p₁, hround, hrest⟩ := bind_eq_ok.mp h
    refine .round hnone hround ?_
    by_cases hnone₁ : p₁.blocks = []
    · rw [fillBlocks_of_nil hnone₁] at hrest
      obtain rfl := Except.ok.inj hrest
      exact .done hnone₁
    · exact ih hrest hnone₁

/-- Filling what has been put off, round after round, fills all blocks that come up, and these refer to
each other only. -/
theorem fillBlocks_filled (fits : ∀ i row, m.row i = .ok row → row.Fits) {rounds : Nat}
    (owned : ∀ b ∈ p.blocks, ∃ span starts, m.OffsetsOf b.2 span starts) (valid : p.draft.Valid)
    (current : p.draft.currentUnit = some unit)
    (known : ∀ text ∈ m.texts.entries, text.reference.id < p.draft.supply.next)
    (h : fillBlocks m registry rounds p = .ok p') : p.draft.Continues p'.draft ∧ Gathers m p p' ∧
      p'.blocks = [] ∧ ∃ made : List (Reference × Nat), p.blocks ⊆ made ∧ ∀ b ∈ made,
        BlockFilled m registry ⟨fun r i => (r, i) ∈ made, (· ∈ p'.texts), (· ∈ p'.met)⟩ p'.draft unit
          b.1 b.2 := by
  replace h := fillRounds_of_fillBlocks h
  induction h with
  | done hnone =>
    exact ⟨.refl _, .of_eq (List.prefix_refl _) rfl rfl, hnone, [], hnone ▸ List.Subset.refl _,
      fun b hb => absurd hb List.not_mem_nil⟩
  | @round p p₁ q _ hround _ ih =>
    -- What this round has filled may refer to blocks that only later rounds fill.
    obtain ⟨hcontinues, hleads, hfilled⟩ :=
      fillAll_filled (p := { p with blocks := [] }) fits owned valid current known hround
    have hvalid₁ := valid.moves hcontinues.moves
    obtain ⟨later, hlater, howned⟩ := hleads.blocks
    obtain ⟨hcontinues', hgathers, hnone, made, hsubset, hmade⟩ := ih
      (fun b hb => howned b (by rwa [hlater] at hb)) hvalid₁
      (hcontinues.currentUnit.trans current)
      (fun text htext => Nat.lt_of_lt_of_le (known text htext) hcontinues.moves.supply_le)
    refine ⟨hcontinues.trans hcontinues', ?_, hnone, p.blocks ++ made,
      List.subset_append_left _ _, fun b hb => ?_⟩
    · have hbefore : Gathers m p { p with blocks := [] } := .of_eq (List.prefix_refl _) rfl rfl
      exact (hbefore.trans hleads.toGathers).trans hgathers
    · rcases List.mem_append.mp hb with hb | hb
      · refine (hfilled b hb).mono hvalid₁ ?_ hcontinues'.moves
        exact ⟨fun r i hmem => List.mem_append_right _ (hsubset hmem),
          fun index hmem => hgathers.texts.subset hmem,
          fun signature hmem => hgathers.met_subset hmem⟩
      · refine (hmade b hb).mono (hvalid₁.moves hcontinues'.moves) ?_ .refl
        exact ⟨fun r i hmem => List.mem_append_right _ hmem, fun _ h => h, fun _ h => h⟩

end ObjectPack.Packing
