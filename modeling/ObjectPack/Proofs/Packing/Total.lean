import ObjectPack.Proofs.Draft.Total
import ObjectPack.Proofs.Model.Sturdy
import ObjectPack.Proofs.Packing.Packs
import ObjectPack.Proofs.Packing.Pending

/-!
# Packing that succeeds

A model whose layout has been solved can be packed: every row can be written where the layout places it, every
block that is put off can be opened when its turn comes, and every text can be marked (`exists_packFrom`).  What
this needs of a model is that its rows are sturdy, that custom structs keep to what they declare
(`CustomStruct.Behaves`), and that no block that is packed reaches the limit of offsets (`Model.Packs`).
-/

namespace ObjectPack

open Outcome WriteStep

/-- Whether a custom struct keeps to what it declares: at every multiple of its alignment where there is room
for it, it can be written, and takes as many bytes as declared. -/
def CustomStruct.Behaves (c : CustomStruct) : Prop :=
  ∀ (d : Draft) (b : Block) (position : Nat), d.Stands b position → position % c.alignment = 0 →
    position + c.size < dataLimit → (∀ limit ∈ b.limit, position + c.size ≤ limit) →
    ∃ d', d.performAll c.writes = .ok d' ∧ d'.position = .ok (position + c.size)

/-- A custom struct behaves if at every multiple of its alignment its steps fit and take as many bytes as
declared. -/
theorem CustomStruct.behaves_of_fit {c : CustomStruct} (fit : ∀ e position, position % c.alignment = 0 →
    position + c.size < dataLimit → AllFitAt e position c.writes ∧
      (allBytesAt e position c.writes).length = c.size) : c.Behaves := by
  intro d b position stands aligned small room
  obtain ⟨hfit, hlength⟩ := fit d.endian position aligned small
  obtain ⟨d', hd', hstands⟩ := stands.performAll hfit (hlength.symm ▸ room)
  exact ⟨d', hd', hlength ▸ hstands.position_eq⟩

namespace Packing

/-- What packing a model needs. -/
structure Packable (m : Model) (allowed : CustomStruct → Prop) (first top : Nat) : Prop
    extends m.Solvable allowed first top where
  small : first < Model.indexLimit
  customs : ∀ c, allowed c → isPowerOfTwo c.alignment = true ∧ c.alignment < wordLimit ∧ c.Behaves
  blocks : ∀ i, m.Packs top i → m.reach i < dataLimit
  /-- Custom values that are packed are there. -/
  filled : ∀ i j owner row, m.Packs top i → m.row i = .ok owner → owner.Owns j → m.row j = .ok row →
    row.kind = .struct → row.value ≠ .null

variable {m : Model} {registry : Registry} {p p' p'' : Packer} {i top first position start stop : Nat}
  {allowed : CustomStruct → Prop} {row : Row} {b : Block} {d d₁ d₂ : Draft} {waiting : List Reference}

namespace Packable

theorem aligned (h : Packable m allowed first top) : ∀ c, allowed c →
    isPowerOfTwo c.alignment = true ∧ c.alignment < wordLimit :=
  fun c hc => ⟨(h.customs c hc).1, (h.customs c hc).2.1⟩

theorem sturdyRow (h : Packable m allowed first top) (hrow : m.row i = .ok row) :
    row.Sturdy allowed m.texts first m.size := h.sturdy i row hrow

theorem fitsRow (h : Packable m allowed first top) (hrow : m.row i = .ok row) : row.Fits :=
  h.whole.fits i row hrow

/-- What is packed as a block owns rows. -/
theorem ownsBlock (h : Packable m allowed first top) (packs : m.Packs top i) : m.OwnsBlock i := by
  have hobject : ∀ {j root}, m.RootOf j root → m.OwnsBlock root := by
    rintro j root ⟨row, s, hrow, hvalue, hstart⟩
    have hkind := (h.fitsRow hrow).kind_of_dataUnit hvalue
    exact h.whole.objects j row root hrow hkind hstart
  cases packs with
  | root hroot => exact hobject hroot
  | @part _ _ _ row _ _ _ hrow block => exact ⟨row, hrow, block.2.imp id (·.1)⟩
  | unit _ _ _ hroot => exact hobject hroot

/-- The layout of a block that is packed. -/
theorem exists_layout (h : Packable m allowed first top) (packs : m.Packs top i) :
    ∃ span starts alignment size, m.members i = .ok span ∧ starts.length = span.length ∧
      m.RowsPlaced span.start 0 starts (m.reach i) ∧ m.blockAlignment i = .ok alignment ∧
      isPowerOfTwo alignment = true ∧ m.blockSize i = .ok size ∧
      alignUp (m.reach i) alignment = .ok size := by
  have howns := h.ownsBlock packs
  have hreach := h.blocks i packs
  obtain ⟨row, hrow, hkind⟩ := howns
  have hblock := h.blockSized h.small h.aligned hrow hkind
  obtain ⟨size, hsize⟩ := Model.exists_blockSize hrow hkind hblock hreach
  obtain ⟨alignment, halignment, hpower, -⟩ := Model.exists_blockAlignment hrow hkind hblock
  obtain ⟨span, hmembers, hsized⟩ := hblock.members
  have hspan : m.members i = .ok span := bind_eq_ok.mpr ⟨row, hrow, hmembers⟩
  have hends : m.reach i = m.reachFrom span.length span.start 0 := by rw [Model.reach, hspan]
  obtain ⟨starts, hlength, hplaced⟩ := Model.exists_rowsPlaced hsized (hends ▸ hreach)
  rw [← hends] at hplaced
  refine ⟨span, starts, alignment, size, hspan, hlength, hplaced, halignment, hpower, hsize, ?_⟩
  -- The size of the block is computed from the extent of the same rows.
  obtain ⟨span', extent, alignment', hspan', hextent, halignment', hrounded⟩ :=
    Model.blockSize_eq_ok ⟨row, hrow, hkind⟩ hsize
  rw [hspan] at hspan'
  cases hspan'
  rw [halignment] at halignment'
  cases halignment'
  have hstop := hplaced.extent
  rw [hlength] at hstop
  obtain rfl := Except.ok.inj (hextent.symm.trans hstop)
  exact hrounded

end Packable

/-! ### Rows with references -/

/-- The block of a row that is packed can be put off, and what is open stays open. -/
theorem exists_deferBlock (packable : Packable m allowed first top) (packs : m.Packs top i) (p : Packer) :
    ∃ reference p', deferBlock m p i = .ok (reference, p') ∧
      ∀ b position, p.draft.Stands b position → p'.draft.Stands b position := by
  obtain ⟨-, -, alignment, size, -, -, -, halignment, hpower, hsize, -⟩ := packable.exists_layout packs
  obtain ⟨⟨reference, d⟩, hnew, hstands⟩ := p.draft.exists_newBlock hpower (some size)
  refine ⟨reference, { p with draft := d, blocks := p.blocks ++ [(reference, i)] }, ?_, hstands⟩
  unfold deferBlock
  simp only [halignment, hsize, hnew, bind_eq_ok, pure_eq_ok, Except.ok.injEq, exists_eq_left']

theorem exists_onDraft {f : Draft → Except Fault Draft} (h : ∃ d, f p.draft = .ok d ∧ d.Stands b stop) :
    ∃ p', p.onDraft f = .ok p' ∧ p'.draft.Stands b stop := by
  obtain ⟨d, hd, hstands⟩ := h
  exact ⟨{ p with draft := d }, onDraft_eq_ok.mpr ⟨d, hd, rfl⟩, hstands⟩

theorem exists_referToBlock (packable : Packable m allowed first top) (packs : m.Packs top i)
    (stands : p.draft.Stands b start) (rounded : alignUp start Pointer.slotSize = .ok start)
    (room : ∀ limit ∈ b.limit, start + Pointer.slotSize ≤ limit) :
    ∃ p', referToBlock m p i = .ok p' ∧ p'.draft.Stands b (start + Pointer.slotSize) := by
  obtain ⟨reference, p₁, hdefer, hstands⟩ := exists_deferBlock packable packs p
  obtain ⟨p', hslot, hstands'⟩ :=
    exists_onDraft (f := (·.writeReference reference))
      ((hstands b start stands).writeReference reference rounded room)
  refine ⟨p', ?_, hstands'⟩
  unfold referToBlock
  exact bind_eq_ok.mpr ⟨_, hdefer, hslot⟩

/-- The counts of a collection are written behind its slot. -/
theorem exists_writeCounts (stands : p.draft.Stands b (start + Pointer.slotSize))
    (aligned : start % Pointer.slotSize = 0) (room : ∀ limit ∈ b.limit, start + 16 ≤ limit)
    (count : UInt32) : ∃ p', p.onDraft (·.performAll [.scalar (.u32 count), .scalar (.u32 count)]) = .ok p' ∧
      p'.draft.Stands b (start + 16) := by
  have hlength : ∀ position, (allBytesAt p.draft.endian position
      [.scalar (.u32 count), .scalar (.u32 count)]).length = 8 := fun position => by
    simp [allBytesAt, bytesAt, Scalar.length_encode, Scalar.format, Scalar.Format.width]
  have hfit : AllFitAt p.draft.endian (start + Pointer.slotSize)
      [.scalar (.u32 count), .scalar (.u32 count)] := by
    unfold Pointer.slotSize at aligned ⊢
    simp only [AllFitAt, FitsAt, bytesAt, Scalar.length_encode, Scalar.format, Scalar.Format.width,
      and_true]
    omega
  have hwritten := stands.performAll hfit (by rw [hlength]; exact room)
  rw [hlength] at hwritten
  exact exists_onDraft hwritten

/-- A collection can be written at its alignment. -/
theorem exists_writeCollection (packable : Packable m allowed first top) (present : row.value = .present)
    (kind : row.kind = .array ∨ row.kind = .dictionary) (stands : p.draft.Stands b start)
    (rounded : alignUp start Pointer.slotSize = .ok start)
    (room : ∀ limit ∈ b.limit, start + 16 ≤ limit) (packs : row.HasBlock → m.Packs top i) :
    ∃ p₁ p', (if row.countWord = 0 then p.onDraft (·.writeNull) else referToBlock m p i) = .ok p₁ ∧
      p₁.onDraft (·.performAll [.scalar (.u32 row.countWord), .scalar (.u32 row.countWord)]) = .ok p' ∧
      p'.draft.Stands b (start + 16) := by
  have haligned := mod_eq_zero_of_alignUp (by decide) rounded
  have hroom : ∀ limit ∈ b.limit, start + Pointer.slotSize ≤ limit := fun limit hlimit =>
    Nat.le_trans (Nat.add_le_add_left (by decide) start) (room limit hlimit)
  have hslot : ∃ p₁, (if row.countWord = 0 then p.onDraft (·.writeNull) else referToBlock m p i) = .ok p₁ ∧
      p₁.draft.Stands b (start + Pointer.slotSize) := by
    split
    · exact exists_onDraft (f := (·.writeNull)) (stands.writeAligned (s := .u64 0) rounded hroom)
    · rename_i hcount
      exact exists_referToBlock packable (packs ⟨present, Or.inr ⟨kind, hcount⟩⟩) stands rounded hroom
  obtain ⟨p₁, hwritten, hstands⟩ := hslot
  obtain ⟨p', hcounts, hstands'⟩ := exists_writeCounts hstands haligned room row.countWord
  exact ⟨p₁, p', hwritten, hcounts, hstands'⟩

/-- A row whose data stands elsewhere can be written at its alignment. -/
theorem exists_writePresent (packable : Packable m allowed first top) (hrow : m.row i = .ok row)
    (present : row.value = .present) (stands : p.draft.Stands b start)
    (rounded : alignUp start Pointer.slotSize = .ok start) {size : Nat} (hsize : row.size? = some size)
    (room : ∀ limit ∈ b.limit, start + size ≤ limit) (packs : row.HasBlock → m.Packs top i) :
    ∃ p', writePresent m p i = .ok p' ∧ p'.draft.Stands b (start + size) := by
  have hfits := packable.fitsRow hrow
  rw [Row.Fits, present] at hfits
  unfold Row.size? at hsize
  unfold writePresent
  simp only [hrow, bind_eq_ok, Except.ok.injEq, exists_eq_left']
  -- Only texts, objects and collections are present.
  cases hkind : row.kind <;> rw [hkind] at hfits hsize <;> try cases hfits
  case string =>
    obtain ⟨index, text, hstart, htext⟩ := (packable.sturdyRow hrow).text hkind present
    obtain rfl : 16 = size := Option.some.inj hsize
    obtain ⟨p₁, hslot, hstands⟩ := exists_onDraft (f := (·.writeText text.reference
      (UInt32.ofNat text.byteCount) (UInt32.ofNat text.charCount))) (stands.writeText _ _ _ rounded room)
    simp only [bind_eq_ok, pure_eq_ok]
    exact ⟨_, ⟨index, (Model.requireStart_eq_ok hrow).mpr hstart, text, htext, p₁, hslot, rfl⟩, hstands⟩
  case object =>
    obtain rfl : 8 = size := Option.some.inj hsize
    exact exists_referToBlock packable (packs ⟨present, Or.inl hkind⟩) stands rounded room
  case array =>
    obtain rfl : 16 = size := Option.some.inj hsize
    obtain ⟨p₁, p', hslot, hcounts, hstands⟩ :=
      exists_writeCollection packable present (Or.inl hkind) stands rounded room packs
    exact ⟨p', ite_bind_eq_ok.mpr ⟨p₁, hslot, hcounts⟩, hstands⟩
  case dictionary =>
    obtain rfl : 16 = size := Option.some.inj hsize
    obtain ⟨p₁, p', hslot, hcounts, hstands⟩ :=
      exists_writeCollection packable present (Or.inr hkind) stands rounded room packs
    exact ⟨p', ite_bind_eq_ok.mpr ⟨p₁, hslot, hcounts⟩, hstands⟩

/-! ### Other rows -/

/-- A row that is no reference is written by its write steps. -/
theorem writeRow_of_steps {alignment : Nat} {steps : List WriteStep}
    (halignment : m.alignment i = .ok alignment) (aligned : p.draft.align alignment = .ok d₁)
    (hrow : m.row i = .ok row) (hsteps : row.steps? registry = some steps)
    (performed : d₁.performAll steps = .ok d₂)
    (declared : ∀ value, row.value = .struct value → ∃ before after, d₁.position = .ok before ∧
      d₂.position = .ok after ∧ after - before = value.size) :
    writeRow m registry p i = .ok (p.behind i row d₂) := by
  have hpadded : p.onDraft (·.align alignment) = .ok { p with draft := d₁ } :=
    onDraft_eq_ok.mpr ⟨d₁, aligned, rfl⟩
  have hall : Packer.onDraft { p with draft := d₁ } (·.performAll steps) = .ok { p with draft := d₂ } :=
    onDraft_eq_ok.mpr ⟨d₂, performed, rfl⟩
  have hone : ∀ step, steps = [step] →
      Packer.onDraft { p with draft := d₁ } (·.perform step) = .ok { p with draft := d₂ } := by
    rintro step rfl
    exact onDraft_eq_ok.mpr ⟨d₂, (Draft.performAll_singleton d₁ step).symm.trans performed, rfl⟩
  -- Every kind of value is written by its own branch, which performs just these steps.
  unfold writeRow
  simp only [halignment, hpadded, hrow, bind_eq_ok, lift_eq_ok, Except.ok.injEq, exists_eq_left']
  unfold Row.steps? at hsteps
  unfold Packer.behind
  cases hvalue : row.value with
  | present =>
    rw [hvalue] at hsteps
    cases hsteps
  | struct value =>
    rw [hvalue] at hsteps
    cases hsteps
    obtain ⟨before, after, hbefore, hafter, hsize⟩ := declared value hvalue
    unfold writeStruct
    simp only [bind_eq_ok, lift_eq_ok, refuse_if_eq_ok, pure_eq_ok, not_not, ne_eq]
    exact ⟨before, hbefore, _, hall, after, hafter, hsize, rfl⟩
  | dataUnit signature =>
    rw [hvalue] at hsteps
    simp only [bind_eq_ok, lift_eq_ok, pure_eq_ok]
    exact ⟨_, hone _ (Option.some.inj hsteps).symm, rfl⟩
  | null =>
    rw [hvalue] at hsteps
    unfold writeAbsent
    simp only [hrow, bind_eq_ok, lift_eq_ok, Except.ok.injEq, exists_eq_left']
    cases hkind : row.kind <;> simp only [hkind] at hsteps <;> cases hsteps
    · exact hall
    · exact hone _ rfl
    · exact hone _ rfl
  | _ =>
    rw [hvalue] at hsteps
    exact lift_eq_ok.mpr (hone _ (Option.some.inj hsteps).symm)

/-- A row that is no reference has write steps, unless it is that of a custom value that is missing. -/
theorem exists_steps (fits : row.Fits) (here : row.value ≠ .present)
    (filled : row.kind = .struct → row.value ≠ .null) :
    ∃ steps, row.steps? registry = some steps := by
  unfold Row.steps?
  unfold Row.Fits at fits
  cases hvalue : row.value with
  | present => exact absurd hvalue here
  | null =>
    simp only [hvalue] at fits
    rcases fits with hkind | hkind | hkind | hkind
    · simp only [hkind, Option.some.injEq, exists_eq']
    · exact absurd hvalue (filled hkind)
    · simp only [hkind, Option.some.injEq, exists_eq']
    · simp only [hkind, Option.some.injEq, exists_eq']
  | _ => exact ⟨_, rfl⟩

/-- The write steps of a row fit at its alignment; custom structs are left to themselves. -/
theorem steps_fit {steps : List WriteStep} (hsteps : row.steps? registry = some steps) (fits : row.Fits)
    (custom : ∀ c, row.value ≠ .struct c) (aligned : ∀ alignment, row.alignment? = some alignment →
      alignUp position alignment = .ok start) (small : start < dataLimit) (e : Endian) :
    AllFitAt e start steps := by
  have hwidth : ∀ f : Scalar.Format, row.alignment? = some f.width → start % f.width = 0 :=
    fun f h => mod_eq_zero_of_alignUp f.isPowerOfTwo_width.1 (aligned _ h)
  have hlocation : row.kind = .dataUnit → ∃ s, alignUp start 4 = .ok s := fun hkind =>
    ⟨start, alignUp_start (by decide) (by decide) (aligned 4 (by rw [Row.alignment?, hkind]; rfl)) small⟩
  have hslot : row.kind = .string ∨ row.kind = .object → alignUp start 8 = .ok start := fun hkind => by
    refine alignUp_start (by decide) (by decide) (aligned 8 ?_) small
    rcases hkind with hkind | hkind <;> rw [Row.alignment?, hkind] <;> rfl
  -- Each kind of value has steps of its own; all but those of an absent text are a single step.
  unfold Row.steps? at hsteps
  unfold Row.Fits at fits
  cases hvalue : row.value with
  | present =>
    rw [hvalue] at hsteps
    cases hsteps
  | struct value => exact absurd hvalue (custom value)
  | dataUnit signature =>
    rw [hvalue] at hsteps fits
    cases hsteps
    exact ⟨hlocation fits, trivial⟩
  | null =>
    rw [hvalue] at hsteps
    cases hkind : row.kind <;> simp only [hkind] at hsteps <;> cases hsteps
    · have hstart := hslot (Or.inl hkind)
      have hmod := mod_eq_zero_of_alignUp (by decide) hstart
      have hpadding := padding_of_aligned (by decide) hstart
      refine ⟨⟨start, hstart⟩, ?_⟩
      simp only [AllFitAt, FitsAt, bytesAt, Pointer.slotSize, hpadding, List.length_append,
        Bytes.length_zeros, Scalar.length_encode, Scalar.format, Scalar.Format.width, and_true]
      omega
    · exact ⟨⟨start, hslot (Or.inr hkind)⟩, trivial⟩
    · exact ⟨hlocation hkind, trivial⟩
  | bool value =>
    rw [hvalue] at hsteps
    cases hsteps
    exact ⟨Nat.mod_one _, trivial⟩
  | bitSet word =>
    rw [hvalue] at hsteps fits
    cases hsteps
    exact ⟨hwidth .u32 (by rw [Row.alignment?, fits]; rfl), trivial⟩
  | scalar value =>
    rw [hvalue] at hsteps fits
    cases hsteps
    refine ⟨hwidth value.format ?_, trivial⟩
    rw [Row.alignment?, fits, ← Kind.alignment_ofFormat]
    cases value <;> rfl
  | enum enumeration value =>
    rw [hvalue] at hsteps fits
    cases hsteps
    refine ⟨?_, trivial⟩
    show start % (enumeration.pack value).format.width = 0
    rw [Enumeration.pack, Scalar.format_ofBits]
    refine hwidth enumeration.format ?_
    rw [Row.alignment?, fits, hvalue, ← Kind.alignment_ofFormat]
    rfl

/-- The write steps of a row that is no reference can be performed at its alignment, and take as many bytes as
the layout gives the row. -/
theorem exists_performSteps (packable : Packable m allowed first top) (hrow : m.row i = .ok row)
    {steps : List WriteStep} (hsteps : row.steps? registry = some steps) {d : Draft}
    (stands : d.Stands b start) (aligned : ∀ alignment, row.alignment? = some alignment →
      alignUp position alignment = .ok start) {size : Nat} (hsize : row.size? = some size)
    (room : ∀ limit ∈ b.limit, start + size ≤ limit) (small : start + size < dataLimit) :
    ∃ d', d.performAll steps = .ok d' ∧ d'.Stands b (start + size) := by
  have hfits := packable.fitsRow hrow
  by_cases hcustom : ∃ c, row.value = .struct c
  · obtain ⟨c, hvalue⟩ := hcustom
    have hkind := hfits.kind_of_struct hvalue
    rw [Row.steps?, hvalue] at hsteps
    rw [Row.size?, hkind, hvalue] at hsize
    obtain rfl := Option.some.inj hsteps
    obtain rfl : c.size = size := Option.some.inj hsize
    obtain ⟨hpower, -, hbehaves⟩ := packable.customs c ((packable.sturdyRow hrow).custom c hvalue)
    have halignment : row.alignment? = some c.alignment := by rw [Row.alignment?, hkind, hvalue]; rfl
    have hstart := mod_eq_zero_of_alignUp hpower (aligned _ halignment)
    obtain ⟨d', hperform, hposition⟩ := hbehaves d b start stands hstart small room
    obtain ⟨stop, hstands⟩ := (Draft.performAll_appends hperform).stands stands
    obtain rfl := Except.ok.inj (hstands.position_eq.symm.trans hposition)
    exact ⟨d', hperform, hstands⟩
  · have hnone : ∀ c, row.value ≠ .struct c := fun c hvalue => hcustom ⟨c, hvalue⟩
    have hfit := steps_fit hsteps hfits hnone aligned (by omega) d.endian
    have hplain := plain_of_steps (e := d.endian) hsteps hfits aligned
    have hlength := size_of_plain hplain hfits fun c hvalue => absurd hvalue (hnone c)
    obtain rfl := Option.some.inj (hlength.symm.trans hsize)
    exact stands.performAll hfit room

variable (registry) in
/-- A row can be written where the layout places it. -/
theorem exists_writeRow (packable : Packable m allowed first top) (hrow : m.row i = .ok row)
    (stands : p.draft.Stands b position) (placed : m.placeRow position i = .ok (start, stop))
    (room : ∀ limit ∈ b.limit, stop ≤ limit) (small : stop < dataLimit)
    (packs : row.HasBlock → m.Packs top i) (filled : row.kind = .struct → row.value ≠ .null) :
    ∃ p', writeRow m registry p i = .ok p' ∧ p'.draft.Stands b stop := by
  have hfits := packable.fitsRow hrow
  obtain ⟨⟨alignment, halignment, hof, hrounded⟩, size, hsize, rfl⟩ := placeRow_eq_ok hrow placed
  have haligned : ∀ a, row.alignment? = some a → alignUp position a = .ok start := fun a ha =>
    Option.some.inj (halignment.symm.trans ha) ▸ hrounded
  obtain ⟨d₁, hpadded, hstands⟩ :=
    stands.align hrounded fun limit hlimit => Nat.le_of_add_right_le (room limit hlimit)
  -- A present value is written as a slot; the others are written as steps.
  by_cases hpresent : row.value = .present
  · have hkind : row.kind.isReferenced = true := by rwa [Row.Fits, hpresent] at hfits
    have hslot : row.alignment? = some Pointer.slotSize := by
      unfold Row.alignment?
      cases hk : row.kind <;> rw [hk] at hkind <;> first | rfl | cases hkind
    have hstart := alignUp_start (by decide) (by decide) (haligned _ hslot)
      (Nat.lt_of_le_of_lt (Nat.le_add_right start size) small)
    obtain ⟨p', hwritten, hstands'⟩ := exists_writePresent (p := { p with draft := d₁ }) packable hrow hpresent
      hstands hstart hsize room packs
    refine ⟨p', ?_, hstands'⟩
    unfold writeRow
    simp only [hof, hrow, hpresent, bind_eq_ok, lift_eq_ok, Except.ok.injEq, exists_eq_left']
    exact ⟨_, onDraft_eq_ok.mpr ⟨d₁, hpadded, rfl⟩, hwritten⟩
  · obtain ⟨steps, hsteps⟩ := exists_steps hfits hpresent filled
    obtain ⟨d₂, hperform, hstands'⟩ :=
      exists_performSteps packable hrow hsteps hstands haligned hsize room small
    refine ⟨p.behind i row d₂, writeRow_of_steps hof hpadded hrow hsteps hperform fun c hvalue => ?_,
      (behind_draft p i row d₂).symm ▸ hstands'⟩
    have hkind := hfits.kind_of_struct hvalue
    rw [Row.size?, hkind, hvalue] at hsize
    obtain rfl : c.size = size := Option.some.inj hsize
    exact ⟨start, start + c.size, hstands.position_eq, hstands'.position_eq, by omega⟩

/-! ### Blocks -/

/-- What has been put off while the rows that `owner` owns were packed: blocks of some of them, and data units
that some of them are. -/
structure Collects (m : Model) (owner : Row) (p p' : Packer) : Prop where
  blocks : ∀ e ∈ p'.blocks, e ∈ p.blocks ∨
    owner.Owns e.2 ∧ ∃ row, m.row e.2 = .ok row ∧ row.HasBlock
  units : ∀ j ∈ p'.units, j ∈ p.units ∨
    owner.Owns j ∧ ∃ row s, m.row j = .ok row ∧ row.value = .dataUnit s

theorem Collects.refl (owner : Row) (p : Packer) : Collects m owner p p :=
  ⟨fun _ he => Or.inl he, fun _ hj => Or.inl hj⟩

theorem Collects.trans {owner : Row} (h : Collects m owner p p') (h' : Collects m owner p' p'') :
    Collects m owner p p'' :=
  ⟨fun e he => (h'.blocks e he).elim (h.blocks e) Or.inr,
    fun j hj => (h'.units j hj).elim (h.units j) Or.inr⟩

theorem PutsOff.collects {owner : Row} (h : PutsOff p p' i row) (hrow : m.row i = .ok row)
    (owns : owner.Owns i) : Collects m owner p p' where
  blocks e he := (h.blocks e he).imp id fun ⟨hi, hblock⟩ => hi ▸ ⟨owns, row, hrow, hblock⟩
  units j hj := (h.units j hj).imp id fun ⟨hi, s, hvalue⟩ => hi ▸ ⟨owns, row, s, hrow, hvalue⟩

variable (registry) in
/-- Rows that a row owns can be written one after another where the layout places them. -/
theorem exists_writeRows (packable : Packable m allowed first top) {owner : Row} {starts : List Nat}
    (placed : m.RowsPlaced i position starts stop) (pending : Pending m waiting p)
    (stands : p.draft.Stands b position) (room : ∀ limit ∈ b.limit, stop ≤ limit)
    (small : stop < dataLimit) (rows : ∀ k < starts.length, owner.Owns (i + k) ∧
      ∃ row, m.row (i + k) = .ok row ∧ (row.HasBlock → m.Packs top (i + k)) ∧
        (row.kind = .struct → row.value ≠ .null)) :
    ∃ p', Span.foldFrom (writeRow m registry) starts.length i p = .ok p' ∧
      p'.draft.Stands b stop ∧ Pending m waiting p' ∧ Collects m owner p p' := by
  induction placed generalizing p with
  | nil => exact ⟨p, rfl, stands, pending, .refl owner p⟩
  | @cons i position start next stop starts hplaced hrest ih =>
    have hle := hrest.byteSize.1
    obtain ⟨howns, row, hrow, hpacks, hfilled⟩ := rows 0 (Nat.zero_lt_succ _)
    obtain ⟨p₁, hwritten, hstands⟩ := exists_writeRow registry packable hrow stands hplaced
      (fun limit hlimit => Nat.le_trans hle (room limit hlimit)) (Nat.lt_of_le_of_lt hle small) hpacks hfilled
    obtain ⟨hpending, hputs⟩ := pending.writeRow hrow hwritten
    obtain ⟨p', hall, hstands', hpending', hcollects⟩ := ih hpending hstands room small fun k hk => by
      have hnext := rows (k + 1) (Nat.succ_lt_succ hk)
      rwa [show i + (k + 1) = i + 1 + k by omega] at hnext
    exact ⟨p', Span.foldFrom_succ_eq_ok.mpr ⟨p₁, hwritten, hall⟩, hstands', hpending',
      (hputs.collects hrow howns).trans hcollects⟩

/-- What the packer works on: blocks that wait in a queue in front of those that have been put off, all of rows
that are packed, while no block is open in the open data unit. -/
structure Filling (m : Model) (top unit : Nat) (textBlock : Reference) (queue : List (Reference × Nat))
    (p : Packer) : Prop extends Pending m (textBlock :: queue.map (·.1)) p where
  current : p.draft.currentUnit = some unit
  closed : p.draft.active? = none
  text : ⟨textBlock, 1, none, none⟩ ∈ p.draft.registered
  packs : ∀ e ∈ queue ++ p.blocks, m.Packs top e.2
  registeredFor : ∀ e ∈ queue ++ p.blocks, ∃ b ∈ p.draft.registered, b.reference = e.1 ∧
    RegisteredFor m b e.2
  roots : ∀ j ∈ p.units, ∃ root, m.RootOf j root ∧ m.Packs top root

section Filling

variable {unit : Nat} {textBlock : Reference} {e : Reference × Nat} {queue : List (Reference × Nat)}
  {owner : Row}

variable (registry) in
/-- A block that waits can be filled. -/
theorem exists_fillBlock (packable : Packable m allowed first top)
    (filling : Filling m top unit textBlock (e :: queue) p) (howner : m.row e.2 = .ok owner) :
    ∃ p', fillBlock m registry p e = .ok p' ∧ Pending m (textBlock :: queue.map (·.1)) p' ∧
      p'.draft.currentUnit = some unit ∧ p'.draft.active? = none ∧ Collects m owner p p' := by
  have hpacks : m.Packs top e.2 := filling.packs _ List.mem_cons_self
  obtain ⟨span, starts, alignment, size, hmembers, hlength, hplaced, halignment, -, hsize, hrounded⟩ :=
    packable.exists_layout hpacks
  -- The block is opened as it was registered.
  have hwaits : e.1 ∈ p.draft.unopened := by
    rw [filling.unopened]
    exact List.mem_append_left _ (List.mem_cons_of_mem _ List.mem_cons_self)
  obtain ⟨d₁, hopen, b, hb, hreference, hstands⟩ :=
    Draft.exists_openBlock filling.valid filling.closed filling.current hwaits
  obtain ⟨b', hb', hreference', hfor⟩ := filling.registeredFor _ List.mem_cons_self
  obtain rfl := filling.valid.eq_of_registered hb hb' (hreference.trans hreference'.symm)
  obtain ⟨size', hsize', hlimit⟩ := hfor.limit
  obtain rfl := Except.ok.inj (hsize.symm.trans hsize')
  have halign := Except.ok.inj (halignment.symm.trans hfor.alignment)
  have hroom : ∀ limit ∈ b.limit, m.reach e.2 ≤ limit := fun limit h =>
    Option.some.inj (hlimit.symm.trans h) ▸ le_of_alignUp hrounded
  have hopened : Pending m ([textBlock] ++ queue.map (·.1)) { p with draft := d₁ } :=
    filling.toPending.openBlock hopen
  -- Its rows are written, and it is closed.
  have hspan : owner.members = .ok span := (Model.members_eq howner).symm.trans hmembers
  have howned : ∀ k < starts.length, owner.Owns (span.start + k) ∧ ∃ row, m.row (span.start + k) = .ok row ∧
      (row.HasBlock → m.Packs top (span.start + k)) ∧ (row.kind = .struct → row.value ≠ .null) := by
    intro k hk
    have howns : owner.Owns (span.start + k) := (Row.owns_iff hspan _).mpr ⟨k, hlength ▸ hk, rfl⟩
    obtain ⟨row, hrow⟩ := packable.whole.exists_owned howner hspan (hlength ▸ hk)
    exact ⟨howns, row, hrow, fun block => .part hpacks howner howns hrow block,
      packable.filled e.2 _ owner row hpacks howner howns hrow⟩
  obtain ⟨p₂, hrows, hstands₂, hpending, hcollects⟩ := exists_writeRows registry packable hplaced hopened hstands
    hroom (packable.blocks e.2 hpacks) howned
  obtain ⟨d₃, hclose⟩ := hstands₂.closeBlock (halign ▸ hrounded)
  have hall : span.foldM (writeRow m registry) { p with draft := d₁ } = .ok p₂ := by
    rw [Span.foldM, ← hlength]
    exact hrows
  have hfill : fillBlock m registry p e = .ok { p₂ with draft := d₃ } := by
    unfold fillBlock
    simp only [bind_eq_ok, lift_eq_ok, hmembers, Except.ok.injEq, exists_eq_left']
    exact ⟨_, onDraft_eq_ok.mpr ⟨d₁, hopen, rfl⟩, p₂, hall, onDraft_eq_ok.mpr ⟨d₃, hclose, rfl⟩⟩
  have hcontinues := (fillBlock_filled packable.whole.fits ⟨span, starts, hmembers, hlength, _, hplaced⟩
    filling.valid filling.current filling.known hfill).1
  exact ⟨_, hfill, hpending.closeBlock hclose, hcontinues.currentUnit.trans filling.current,
    Draft.active?_of_no_current (Draft.closeBlock_blocks hclose).2, ⟨hcollects.blocks, hcollects.units⟩⟩

variable (registry) in
/-- What is put off while a block is filled is packed later, and stands behind the block in the table. -/
theorem exists_filling (packable : Packable m allowed first top)
    (filling : Filling m top unit textBlock (e :: queue) p) :
    ∃ p', fillBlock m registry p e = .ok p' ∧ Filling m top unit textBlock queue p' ∧
      ∀ e' ∈ p'.blocks, e' ∈ p.blocks ∨ e.2 < e'.2 := by
  have hpacks : m.Packs top e.2 := filling.packs _ List.mem_cons_self
  obtain ⟨owner, howner, hkind⟩ := packable.ownsBlock hpacks
  have hunit : owner.kind ≠ .dataUnit := by
    rcases hkind with hkind | hkind | hkind <;> rw [hkind] <;> decide
  obtain ⟨p', hfill, hpending, hcurrent, hclosed, hcollects⟩ :=
    exists_fillBlock registry packable filling howner
  -- What filling the block has put off is a part of it, so it packs, stands behind it, and has a block.
  obtain ⟨made, new, hmade, hnew, -, hregistered⟩ := fillBlock_defers hfill
  refine ⟨p', hfill, ⟨hpending, hcurrent, hclosed, ?_, fun e' he' => ?_, fun e' he' => ?_, fun j hj => ?_⟩,
    fun e' he' => ?_⟩
  · exact hnew ▸ List.mem_append_left _ filling.text
  · rcases List.mem_append.mp he' with he' | he'
    · exact filling.packs e' (List.mem_append_left _ (List.mem_cons_of_mem _ he'))
    · rcases hcollects.blocks e' he' with hold | ⟨howns, row, hrow, hblock⟩
      · exact filling.packs e' (List.mem_append_right _ hold)
      · exact .part hpacks howner howns hrow hblock
  · rw [hmade, ← List.append_assoc] at he'
    rw [hnew]
    rcases List.mem_append.mp he' with hold | hnew
    · obtain ⟨b, hb, hfor⟩ := filling.registeredFor e' (List.mem_cons_of_mem _ hold)
      exact ⟨b, List.mem_append_left _ hb, hfor⟩
    · obtain ⟨b, hb, hfor⟩ := hregistered e' hnew
      exact ⟨b, List.mem_append_right _ hb, hfor⟩
  · rcases hcollects.units j hj with hold | ⟨howns, row, s, hrow, hvalue⟩
    · exact filling.roots j hold
    · obtain ⟨root, hstart⟩ := (packable.sturdyRow hrow).root s hvalue
      have hroot : m.RootOf j root := ⟨row, s, hrow, hvalue, hstart⟩
      exact ⟨root, hroot, .unit hpacks howner howns hroot⟩
  · exact (hcollects.blocks e' he').imp id fun ⟨howns, _⟩ =>
      packable.ordered.below e.2 owner e'.2 howner hunit howns

variable (registry) in
/-- All blocks of a queue can be filled. -/
theorem exists_fillAll (packable : Packable m allowed first top) {n : Nat}
    (filling : Filling m top unit textBlock queue p) (deep : ∀ e ∈ queue, n ≤ e.2)
    (deeper : ∀ e ∈ p.blocks, n < e.2) :
    ∃ p', queue.foldlM (fillBlock m registry) p = .ok p' ∧ Filling m top unit textBlock [] p' ∧
      ∀ e ∈ p'.blocks, n < e.2 := by
  induction queue generalizing p with
  | nil => exact ⟨p, rfl, filling, deeper⟩
  | cons e queue ih =>
    obtain ⟨p₁, hfirst, hfilling, hlater⟩ := exists_filling registry packable filling
    have hdeep := deep e List.mem_cons_self
    obtain ⟨p', hrest, hlast⟩ := ih hfilling (fun e' he' => deep e' (List.mem_cons_of_mem _ he'))
      fun e' he' => (hlater e' he').elim (deeper e') fun hlt => Nat.lt_of_le_of_lt hdeep hlt
    exact ⟨p', List.foldlM_cons.trans (bind_eq_ok.mpr ⟨p₁, hfirst, hrest⟩), hlast⟩

variable (registry) in
/-- All blocks that come up can be filled: every round fills blocks that stand further behind in the table. -/
theorem exists_fillBlocks (packable : Packable m allowed first top) (rounds : Nat) {n : Nat}
    (filling : Filling m top unit textBlock [] p) (deep : ∀ e ∈ p.blocks, n ≤ e.2)
    (enough : m.size < n + rounds) :
    ∃ p', fillBlocks m registry rounds p = .ok p' ∧ Filling m top unit textBlock [] p' ∧
      p'.blocks = [] := by
  -- What waits after a round stands behind what has waited, so the rounds cannot run out.
  induction rounds generalizing p n with
  | zero =>
    have hnone : p.blocks = [] := by
      rw [List.eq_nil_iff_forall_not_mem]
      intro e he
      obtain ⟨owner, howner, -⟩ := packable.ownsBlock (filling.packs e he)
      have hlt := Model.lt_size_of_row howner
      have hle := deep e he
      omega
    exact ⟨p, fillBlocks_of_nil hnone 0, filling, hnone⟩
  | succ rounds ih =>
    by_cases hnone : p.blocks = []
    · exact ⟨p, fillBlocks_of_nil hnone _, filling, hnone⟩
    · have hqueued : Filling m top unit textBlock p.blocks { p with blocks := [] } :=
        { valid := filling.valid
          known := filling.known
          unopened := by
            rw [List.map_nil, List.append_nil]
            exact filling.unopened
          refers := filling.refers
          unmarked := filling.unmarked
          unnamed := filling.unnamed
          texts := filling.texts
          current := filling.current
          closed := filling.closed
          text := filling.text
          packs := fun e he => filling.packs e (by rwa [List.append_nil] at he)
          registeredFor := fun e he => filling.registeredFor e (by rwa [List.append_nil] at he)
          roots := filling.roots }
      obtain ⟨p₁, hround, hfilling, hdeeper⟩ := exists_fillAll registry packable hqueued deep
        fun e he => absurd he List.not_mem_nil
      obtain ⟨p', hrest, hlast⟩ := ih hfilling (fun e he => hdeeper e he) (by omega)
      exact ⟨p', (fillBlocks_succ hnone rounds).trans (bind_eq_ok.mpr ⟨p₁, hround, hrest⟩), hlast⟩

end Filling

end Packing

end ObjectPack
