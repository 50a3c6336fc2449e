import ObjectPack.Proofs.Draft.Outline

/-!
# Operations that succeed

The operations on a draft refuse what would break a contract.  Whether something can be written into the open block
is told by what the block was registered as and by the position of the cursor (`Draft.Stands`): scalars need a
position that is a multiple of their width, padding needs one that can be rounded up, and all need room below
the limit of the block (`Stands.performAll`).  Blocks can be opened as long as they wait for it
(`exists_openBlock`), and references can be marked that have no meaning yet (`Stands.mark`).
-/

namespace ObjectPack

open Outcome

theorem Scalar.Format.isPowerOfTwo_width (f : Scalar.Format) :
    isPowerOfTwo f.width = true ∧ f.width < wordLimit := by
  cases f <;> decide

theorem mod_eq_zero_of_alignUp {value align start : Nat} (power : isPowerOfTwo align = true)
    (h : alignUp value align = .ok start) : start % align = 0 :=
  Nat.mod_eq_zero_of_dvd (alignUp_spec power h).1

namespace WriteStep

/-- Whether a write step can be performed at a position of a block that has room for it. -/
def FitsAt (position : Nat) : WriteStep → Prop
  | .scalar value => position % value.format.width = 0
  | .aligned value => ∃ start, alignUp position value.format.width = .ok start
  | .bytes _ | .zeros _ => True
  | .align alignment => ∃ start, alignUp position alignment = .ok start
  | .nullReference => ∃ start, alignUp position Pointer.slotSize = .ok start
  | .location container _ => ∃ start, alignUp position (Scalar.u32 container).format.width = .ok start

/-- Whether write steps can be performed one after another from a position on. -/
def AllFitAt (e : Endian) : Nat → List WriteStep → Prop
  | _, [] => True
  | position, step :: rest =>
    step.FitsAt position ∧ AllFitAt e (position + (step.bytesAt e position).length) rest

end WriteStep

namespace Draft

open WriteStep

variable {d d' : Draft} {b : Block} {position : Nat}

/-! ### Writing -/

/-- Whether the open block was registered as `b`, and the cursor stands at a position of it. -/
def Stands (d : Draft) (b : Block) (position : Nat) : Prop :=
  ∃ index block body, d.active? = some (index, block, body) ∧ block.registered = b ∧
    body.size = position

namespace Stands

theorem position_eq (h : d.Stands b position) : d.position = .ok position := by
  obtain ⟨index, block, body, hactive, -, rfl⟩ := h
  exact OpenAt.position_eq ⟨block, hactive, rfl⟩

theorem append (h : d.Stands b position) {c : Bytes}
    (room : ∀ l ∈ b.limit, position + c.length ≤ l) :
    ∃ d', d.append c = .ok d' ∧ d'.Stands b (position + c.length) := by
  obtain ⟨index, block, body, hactive, rfl, rfl⟩ := h
  exact ⟨_, append_eq_ok.mpr ⟨index, block, body, hactive, room, rfl⟩, index, _, _,
    setBody_active _ hactive, rfl, rfl⟩

theorem align (h : d.Stands b position) {alignment start : Nat}
    (rounded : alignUp position alignment = .ok start) (room : ∀ l ∈ b.limit, start ≤ l) :
    ∃ d', d.align alignment = .ok d' ∧ d'.Stands b start := by
  have hle := le_of_alignUp rounded
  unfold Draft.align
  simp only [h.position_eq, rounded, bind_eq_ok, Except.ok.injEq, exists_eq_left']
  split
  · have hlength : position + (Bytes.zeros (start - position)).length = start := by
      rw [Bytes.length_zeros]
      omega
    have happend := h.append (c := Bytes.zeros (start - position))
    rw [hlength] at happend
    exact happend room
  · obtain rfl : position = start := by omega
    exact ⟨d, rfl, h⟩

theorem write (h : d.Stands b position) {s : Scalar} (aligned : position % s.format.width = 0)
    (room : ∀ l ∈ b.limit, position + s.format.width ≤ l) :
    ∃ d', d.write s = .ok d' ∧ d'.Stands b (position + s.format.width) := by
  have hlength : (s.encode d.endian).length = s.format.width := Scalar.length_encode d.endian s
  obtain ⟨d', happend, hstands⟩ := h.append (c := s.encode d.endian) (hlength ▸ room)
  obtain ⟨index, block, body, hactive, -, rfl⟩ := h
  exact ⟨d', write_eq_ok.mpr ⟨⟨index, block, body, hactive, aligned⟩, happend⟩, hlength ▸ hstands⟩

theorem writeAligned (h : d.Stands b position) {s : Scalar} {start : Nat}
    (rounded : alignUp position s.format.width = .ok start)
    (room : ∀ l ∈ b.limit, start + s.format.width ≤ l) :
    ∃ d', d.writeAligned s = .ok d' ∧ d'.Stands b (start + s.format.width) := by
  obtain ⟨d₁, halign, h₁⟩ := h.align rounded fun l hl => Nat.le_of_add_right_le (room l hl)
  have haligned := mod_eq_zero_of_alignUp s.format.isPowerOfTwo_width.1 rounded
  obtain ⟨d', hwrite, h'⟩ := h₁.write haligned room
  refine ⟨d', ?_, h'⟩
  unfold Draft.writeAligned
  exact bind_eq_ok.mpr ⟨d₁, halign, hwrite⟩

theorem writeLocation (h : d.Stands b position) {container entry : UInt32} {start : Nat}
    (rounded : alignUp position 4 = .ok start) (room : ∀ l ∈ b.limit, start + 8 ≤ l) :
    ∃ d', d.writeLocation container entry = .ok d' ∧ d'.Stands b (start + 8) := by
  obtain ⟨d₁, hcontainer, h₁⟩ := h.writeAligned (s := .u32 container) rounded fun l hl =>
    Nat.le_trans (Nat.add_le_add_left (show 4 ≤ 8 by decide) start) (room l hl)
  have hstart := mod_eq_zero_of_alignUp (by decide) rounded
  obtain ⟨d', hentry, h'⟩ := h₁.write (s := .u32 entry)
    (show (start + 4) % 4 = 0 by omega) room
  refine ⟨d', ?_, h'⟩
  unfold Draft.writeLocation
  exact bind_eq_ok.mpr ⟨d₁, hcontainer, hentry⟩

/-- A write step can be performed where it fits. -/
theorem perform (h : d.Stands b position) {step : WriteStep} (fits : step.FitsAt position)
    (room : ∀ l ∈ b.limit, position + (step.bytesAt d.endian position).length ≤ l) :
    ∃ d', d.perform step = .ok d' ∧
      d'.Stands b (position + (step.bytesAt d.endian position).length) := by
  cases step with
  | scalar value =>
    simp only [bytesAt, Scalar.length_encode] at room ⊢
    exact h.write fits room
  | bytes value => exact h.append room
  | zeros count => exact h.append room
  | aligned value =>
    obtain ⟨start, hstart⟩ := fits
    simp only [bytesAt, List.length_append, Bytes.length_zeros, Scalar.length_encode, ← Nat.add_assoc,
      add_padding hstart] at room ⊢
    exact h.writeAligned hstart room
  | align alignment =>
    obtain ⟨start, hstart⟩ := fits
    simp only [bytesAt, Bytes.length_zeros, add_padding hstart] at room ⊢
    exact h.align hstart room
  | nullReference =>
    obtain ⟨start, hstart⟩ := fits
    simp only [bytesAt, List.length_append, Bytes.length_zeros, ← Nat.add_assoc,
      add_padding hstart] at room ⊢
    exact h.writeAligned (s := .u64 0) hstart room
  | location container entry =>
    obtain ⟨start, hstart⟩ := fits
    simp only [bytesAt, List.length_append, Bytes.length_zeros, Scalar.length_encode, ← Nat.add_assoc,
      add_padding hstart] at room ⊢
    exact h.writeLocation hstart room

/-- Write steps can be performed where they fit one after another. -/
theorem performAll {steps : List WriteStep} (h : d.Stands b position)
    (fit : AllFitAt d.endian position steps)
    (room : ∀ l ∈ b.limit, position + (allBytesAt d.endian position steps).length ≤ l) :
    ∃ d', d.performAll steps = .ok d' ∧
      d'.Stands b (position + (allBytesAt d.endian position steps).length) := by
  induction steps generalizing d position with
  | nil => exact ⟨d, rfl, h⟩
  | cons step rest ih =>
    obtain ⟨hfirst, hrest⟩ := fit
    simp only [allBytesAt, List.length_append, ← Nat.add_assoc] at room ⊢
    obtain ⟨d₁, hperform, h₁⟩ := h.perform hfirst fun l hl => Nat.le_of_add_right_le (room l hl)
    have hmoves : d.Moves (fun _ => True) d₁ := (perform_appends hperform).moves
    have hendian := hmoves.endian_eq
    obtain ⟨d', hall, h'⟩ := ih h₁ (hendian ▸ hrest) (hendian ▸ room)
    rw [hendian] at h'
    refine ⟨d', ?_, h'⟩
    unfold Draft.performAll
    rw [List.foldlM_cons]
    exact bind_eq_ok.mpr ⟨d₁, hperform, hall⟩

theorem writeReference (h : d.Stands b position) (target : Reference) {start : Nat}
    (rounded : alignUp position Pointer.slotSize = .ok start)
    (room : ∀ l ∈ b.limit, start + Pointer.slotSize ≤ l) :
    ∃ d', d.writeReference target = .ok d' ∧ d'.Stands b (start + Pointer.slotSize) := by
  obtain ⟨d₁, halign, h₁⟩ := h.align rounded fun l hl => Nat.le_of_add_right_le (room l hl)
  have haligned := mod_eq_zero_of_alignUp (by decide) rounded
  obtain ⟨index, block, body, hactive, rfl, rfl⟩ := h₁
  -- The site is noted before its slot is written.
  have hnoted := setBody_active { body with sites := body.sites ++ [⟨body.size, target, d.encoding⟩] } hactive
  have hstands : Stands (d₁.setBody index _) block.registered body.size :=
    ⟨index, _, _, hnoted, rfl, rfl⟩
  obtain ⟨d', hwrite, h'⟩ := hstands.write (s := .i64 (Int64.ofNat target.id)) haligned room
  refine ⟨d', ?_, h'⟩
  unfold Draft.writeReference writeReferenceAs
  simp only [bind_eq_ok, active_eq_ok, Prod.exists]
  exact ⟨d₁, halign, index, block, body, hactive, hwrite⟩

theorem writeText (h : d.Stands b position) (target : Reference) (byteCount charCount : UInt32)
    {start : Nat} (rounded : alignUp position Pointer.slotSize = .ok start)
    (room : ∀ l ∈ b.limit, start + 16 ≤ l) :
    ∃ d', d.writeText target byteCount charCount = .ok d' ∧ d'.Stands b (start + 16) := by
  have hstart := mod_eq_zero_of_alignUp (by decide) rounded
  have hroom : ∀ n ≤ 16, ∀ l ∈ b.limit, start + n ≤ l := fun n hn l hl =>
    Nat.le_trans (Nat.add_le_add_left hn start) (room l hl)
  obtain ⟨d₁, hslot, h₁⟩ := h.writeReference target rounded (hroom 8 (by decide))
  obtain ⟨d₂, hbytes, h₂⟩ := h₁.write (s := .u32 byteCount)
    (show (start + 8) % 4 = 0 by unfold Pointer.slotSize at hstart; omega) (hroom 12 (by decide))
  obtain ⟨d', hchars, h'⟩ := h₂.write (s := .u32 charCount)
    (show (start + 8 + 4) % 4 = 0 by unfold Pointer.slotSize at hstart; omega) room
  refine ⟨d', ?_, h'⟩
  unfold Draft.writeText
  exact bind_eq_ok.mpr ⟨d₁, hslot, bind_eq_ok.mpr ⟨d₂, hbytes, hchars⟩⟩

theorem mark (h : d.Stands b position) {unit : Nat} {reference : Reference}
    (current : d.currentUnit = some unit) (unnamed : ∀ block ∈ d.blocks, block.reference ≠ reference)
    (unmarked : ¬ d.MarkedIn unit reference) :
    ∃ d', d.mark reference = .ok d' ∧ d'.Stands b position := by
  obtain ⟨index, block, body, hactive, rfl, rfl⟩ := h
  have hindex : d.blockIndex? reference = none :=
    List.findIdx?_eq_none_iff.mpr fun other hother => decide_eq_false (unnamed other hother)
  have hmarked : d.isMarked unit reference = false :=
    Bool.eq_false_iff.mpr fun h => unmarked (isMarked_iff.mp h)
  refine ⟨d.setBody index { body with marks := body.marks ++ [⟨reference, body.size⟩] }, ?_, index, _, _,
    setBody_active _ hactive, rfl, rfl⟩
  unfold Draft.mark
  simp only [bind_eq_ok, active_eq_ok, requireUnit_eq_ok, Prod.exists, refuse_if_eq_ok, pure_eq_ok]
  exact ⟨index, block, body, hactive, unit, current, by rw [hindex, hmarked]; decide, rfl⟩

theorem closeBlock (h : d.Stands b position) {padded : Nat}
    (rounded : alignUp position b.alignment = .ok padded) : ∃ d', d.closeBlock = .ok d' := by
  obtain ⟨index, block, body, hactive, rfl, rfl⟩ := h
  unfold Draft.closeBlock
  simp only [bind_eq_ok, active_eq_ok, Prod.exists, pure_eq_ok]
  exact ⟨_, index, block, body, hactive, padded, rounded, rfl⟩

end Stands

/-! ### Blocks -/

/-- Blocks of sensible alignments can be registered, and the open block stays open. -/
theorem exists_newBlock {alignment : Nat} (power : isPowerOfTwo alignment = true)
    (limit : Option Nat) : ∃ result, d.newBlock alignment limit = .ok result ∧
      ∀ b position, d.Stands b position → result.2.Stands b position := by
  unfold newBlock
  simp only [refuse_if_eq_ok, pure_eq_ok, power, not_true_eq_false, not_false_eq_true, true_and,
    exists_eq_left']
  rintro b position ⟨index, block, body, hactive, rfl, rfl⟩
  obtain ⟨hcurrent, hfound, hbody⟩ := active?_eq_some.mp hactive
  refine ⟨index, block, body, active?_eq_some.mpr ⟨hcurrent, ?_, hbody⟩, rfl, rfl⟩
  exact (List.getElem?_append_left (List.getElem?_eq_some_iff.mp hfound).1).trans hfound

/-- Bytes that are appended move the cursor of the open block. -/
theorem Appends.stands (h : d.Appends d') (stands : d.Stands b position) :
    ∃ stop, d'.Stands b stop := by
  induction h with
  | refl => exact ⟨position, stands⟩
  | tail _ happend ih =>
    obtain ⟨_, happend⟩ := happend
    obtain ⟨stop, index, block, body, hactive, rfl, rfl⟩ := ih
    obtain ⟨i, bl, bo, hactive', -, rfl⟩ := append_eq_ok.mp happend
    rw [hactive] at hactive'
    cases hactive'
    exact ⟨_, index, _, _, setBody_active _ hactive, rfl, rfl⟩

/-- A block is found by its reference. -/
theorem Valid.blockIndex?_eq (valid : d.Valid) {index : Nat} {block : Block} (found : d.blocks[index]? = some block) :
    d.blockIndex? block.reference = some index := by
  obtain ⟨hlt, hget⟩ := List.getElem?_eq_some_iff.mp found
  refine List.findIdx?_eq_some_iff_getElem.mpr ⟨hlt, decide_eq_true (by rw [hget]), fun j hj => ?_⟩
  -- No earlier block has the reference.
  have hne := (List.pairwise_iff_getElem.mp (List.nodup_iff_pairwise_ne.mp valid.referencesOnce)) j index
    (by simpa using Nat.lt_trans hj hlt) (by simpa using hlt) hj
  simpa [hget] using hne

/-- A block that waits for it can be opened. -/
theorem exists_openBlock (valid : d.Valid) (closed : d.active? = none) {unit : Nat}
    (current : d.currentUnit = some unit) {reference : Reference} (waits : reference ∈ d.unopened) :
    ∃ d', d.openBlock reference = .ok d' ∧
      ∃ b ∈ d.registered, b.reference = reference ∧ d'.Stands b 0 := by
  obtain ⟨block, hblock, hfresh, rfl⟩ := mem_unopened.mp waits
  obtain ⟨index, hfound⟩ := List.mem_iff_getElem?.mp hblock
  have hlt := (List.getElem?_eq_some_iff.mp hfound).1
  have hindex := valid.blockIndex?_eq hfound
  refine ⟨_, openBlock_eq_ok.mpr ⟨index, unit, block, closed, current, hindex, hfound, hfresh, rfl⟩,
    block.registered, List.mem_map_of_mem hblock, rfl, index,
    { block with body := some ⟨unit, d.buffer.length, 0, [], []⟩ }, _, active?_eq_some.mpr ⟨rfl, ?_, rfl⟩,
    rfl, rfl⟩
  exact List.getElem?_set_self hlt

end Draft

end ObjectPack
