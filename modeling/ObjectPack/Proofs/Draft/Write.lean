import ObjectPack.Proofs.Align
import ObjectPack.Proofs.Draft.Extend

/-!
# Writing into the open block

Whatever is written stands at the cursor of the open block, behind the padding that it needs, and all
that was written before stays (`Draft.Wrote`).  What a write step adds depends on nothing but the byte
order and the position in the block (`WriteStep.bytesAt`), so what a list of steps adds is known as
well (`performAll_wrote`).  References are the one thing that is not known in advance: they leave a
site behind (`writeReference_wrote`).
-/

namespace ObjectPack

theorem Body.GrowsTo.mem_sites {body body' : Body} (h : body.GrowsTo body') {site : Site}
    (hsite : site ∈ body.sites) : site ∈ body'.sites := by
  obtain ⟨later, hlater, -⟩ := h.sites
  rw [hlater]
  exact List.mem_append_left later hsite

namespace WriteStep

/-- How many zero bytes lead from a position to the next multiple of an alignment. -/
def padding (position alignment : Nat) : Nat :=
  match alignUp position alignment with
  | .ok start => start - position
  | .error _ => 0

/-- What a write step adds at a position of a block. -/
def bytesAt (e : Endian) (position : Nat) : WriteStep → Bytes
  | .scalar value => value.encode e
  | .aligned value => Bytes.zeros (padding position value.format.width) ++ value.encode e
  | .bytes value => value
  | .zeros count => Bytes.zeros count
  | .align alignment => Bytes.zeros (padding position alignment)
  | .nullReference =>
    Bytes.zeros (padding position Pointer.slotSize) ++ Bytes.zeros Pointer.slotSize
  | .location container entry =>
    Bytes.zeros (padding position (Scalar.u32 container).format.width)
      ++ (Scalar.u32 container).encode e ++ (Scalar.u32 entry).encode e

/-- What write steps add from a position of a block on. -/
def allBytesAt (e : Endian) : Nat → List WriteStep → Bytes
  | _, [] => []
  | position, step :: rest =>
    step.bytesAt e position ++ allBytesAt e (position + (step.bytesAt e position).length) rest

theorem padding_eq {position alignment start : Nat} (h : alignUp position alignment = .ok start) :
    padding position alignment = start - position := by
  rw [padding, h]

theorem add_padding {position alignment start : Nat} (h : alignUp position alignment = .ok start) :
    position + padding position alignment = start := by
  have hle := le_of_alignUp h
  rw [padding_eq h]
  omega

/-- Nothing leads from a multiple to the next one. -/
theorem padding_of_aligned {value position alignment : Nat} (power : isPowerOfTwo alignment = true)
    (h : alignUp value alignment = .ok position) : padding position alignment = 0 := by
  unfold padding
  split
  · rename_i start hstart
    rw [alignUp_again power h hstart, Nat.sub_self]
  · rfl

end WriteStep

namespace Draft

open Outcome WriteStep

variable {d d' d'' : Draft} {index : Nat} {reference : Reference} {body body' body'' : Body}
  {allowed : PointerEncoding → Prop}

/-! ### The open block -/

/-- Whether the block of a reference is open. -/
def OpenAt (d : Draft) (index : Nat) (reference : Reference) (body : Body) : Prop :=
  ∃ block, d.active? = some (index, block, body) ∧ block.reference = reference

theorem OpenAt.inside (h : d.OpenAt index reference body) (valid : d.Valid) :
    body.start + body.size ≤ d.buffer.length := by
  obtain ⟨block, hactive, -⟩ := h
  exact Nat.le_of_eq (valid.cursor index block body hactive).1

theorem OpenAt.eq_of_active {block : Block} {i : Nat} {b : Body}
    (h : d.OpenAt index reference body) (active : d.active? = some (i, block, b)) :
    i = index ∧ b = body ∧ block.reference = reference := by
  obtain ⟨block', hactive, hreference⟩ := h
  rw [active] at hactive
  cases hactive
  exact ⟨rfl, rfl, hreference⟩

theorem OpenAt.position_eq (h : d.OpenAt index reference body) : d.position = .ok body.size := by
  obtain ⟨block, hactive, -⟩ := h
  unfold position
  simp only [bind_eq_ok, active_eq_ok, pure_eq_ok]
  exact ⟨_, hactive, rfl⟩

/-- Whether writing into the open block of a draft has given another draft. -/
structure Wrote (index : Nat) (reference : Reference) (d : Draft) (body : Body) (d' : Draft)
    (body' : Body) : Prop where
  opened : d'.OpenAt index reference body'
  moves : Moves (· = d.encoding) d d'
  units : d'.units = d.units
  grows : body.GrowsTo body'

theorem Wrote.refl (h : d.OpenAt index reference body) : Wrote index reference d body d body :=
  ⟨h, .refl, rfl, .refl body⟩

theorem Wrote.encoding (h : Wrote index reference d body d' body') : d'.encoding = d.encoding :=
  h.moves.encoding_eq rfl

theorem Wrote.trans (h : Wrote index reference d body d' body')
    (h' : Wrote index reference d' body' d'' body'') : Wrote index reference d body d'' body'' where
  opened := h'.opened
  moves := h.moves.trans (h.encoding ▸ h'.moves)
  units := h'.units.trans h.units
  grows := h.grows.trans h'.grows

/-- What has been written stays. -/
theorem HoldsAt.wrote {offset : Nat} {b : Bytes} (h : d.HoldsAt body offset b) (valid : d.Valid)
    (opened : d.OpenAt index reference body) (wrote : Wrote index reference d body d' body') :
    d'.HoldsAt body' offset b :=
  h.extends wrote.grows wrote.moves.extends.buffer (opened.inside valid)

/-- What stands side by side stands there as a whole. -/
theorem HoldsAt.append {offset : Nat} {a b : Bytes} (ha : d.HoldsAt body offset a)
    (hb : d.HoldsAt body (offset + a.length) b) : d.HoldsAt body offset (a ++ b) where
  inside := by
    rw [List.length_append]
    have h := hb.inside
    omega
  content := by
    intro i hi
    rw [List.length_append] at hi
    by_cases hfirst : i < a.length
    · rw [List.getElem?_append_left hfirst]
      exact ha.content i hfirst
    · rw [List.getElem?_append_right (by omega), ← hb.content (i - a.length) (by omega)]
      congr 1
      omega
  apart := by
    intro site hsite
    -- A slot is longer than nothing, so none fits between the two parts.
    have hpos : 0 < Pointer.slotSize := by decide
    rw [List.length_append]
    rcases ha.apart site hsite with h | h <;> rcases hb.apart site hsite with h' | h' <;> omega

/-- Zeros are zero everywhere. -/
theorem HoldsAt.zero {offset back n : Nat} (h : d.HoldsAt body offset (Bytes.zeros n))
    (inside : back < n) : d.HoldsAt body (offset + back) [0] := by
  have hlength := Bytes.length_zeros n
  have hinside := h.inside
  refine ⟨?_, fun i hi => ?_, fun site hsite => ?_⟩
  · rw [List.length_singleton]
    omega
  · rw [List.length_singleton] at hi
    obtain rfl : i = 0 := by omega
    have hbyte := h.content back (by omega)
    rw [Bytes.zeros, List.getElem?_replicate_of_lt inside] at hbyte
    rw [Nat.add_zero, ← Nat.add_assoc, hbyte]
    rfl
  · rw [List.length_singleton]
    rcases h.apart site hsite with hbefore | hbehind <;> omega

theorem Wrote.endian (h : Wrote index reference d body d' body') : d'.endian = d.endian :=
  h.moves.endian_eq

/-! ### Bytes -/

/-- Bytes are written at the cursor. -/
theorem append_wrote (valid : d.Valid) (opened : d.OpenAt index reference body) {b : Bytes}
    (h : d.append b = .ok d') : ∃ body', Wrote index reference d body d' body' ∧
      body'.size = body.size + b.length ∧ d'.HoldsAt body' body.size b := by
  obtain ⟨i, block, written, hactive, -, rfl⟩ := append_eq_ok.mp h
  obtain ⟨rfl, rfl, hreference⟩ := opened.eq_of_active hactive
  refine ⟨{ written with size := written.size + b.length }, ?_, rfl,
    grown_holdsAt valid hactive b⟩
  exact
    { opened := ⟨_, setBody_active _ hactive, hreference⟩
      moves := .single (append_move h)
      units := rfl
      grows := ⟨rfl, rfl, Nat.le_add_right _ _, List.prefix_refl _, [], (List.append_nil _).symm,
        fun site hsite => absurd hsite List.not_mem_nil⟩ }

/-- No bytes are anywhere. -/
theorem OpenAt.holdsAt_nil (h : d.OpenAt index reference body) (valid : d.Valid) :
    d.HoldsAt body body.size [] := by
  obtain ⟨block, hactive, -⟩ := h
  obtain ⟨-, hfound, hbody⟩ := active?_eq_some.mp hactive
  exact
    { inside := Nat.le_refl _
      content := fun i hi => absurd hi (Nat.not_lt_zero i)
      apart := fun site hsite =>
        Or.inl ((valid.bodies block (List.mem_of_getElem? hfound) body hbody).slotsInside site hsite) }

/-- Padding is zeros up to the next multiple of the alignment. -/
theorem align_wrote (valid : d.Valid) (opened : d.OpenAt index reference body) {alignment : Nat}
    (h : d.align alignment = .ok d') : ∃ body', Wrote index reference d body d' body' ∧
      alignUp body.size alignment = .ok body'.size ∧
      d'.HoldsAt body' body.size (Bytes.zeros (padding body.size alignment)) := by
  unfold align position at h
  simp only [bind_eq_ok, active_eq_ok, pure_eq_ok, Prod.exists] at h
  obtain ⟨size, ⟨i, block, written, hactive, rfl⟩, start, hstart, h⟩ := h
  obtain ⟨rfl, rfl, -⟩ := opened.eq_of_active hactive
  rw [padding_eq hstart]
  have hle := le_of_alignUp hstart
  split at h
  · obtain ⟨body', hwrote, hsize, hholds⟩ := append_wrote valid opened h
    rw [Bytes.length_zeros, Nat.add_sub_cancel' hle] at hsize
    exact ⟨body', hwrote, hsize ▸ hstart, hholds⟩
  · obtain rfl := pure_eq_ok.mp h
    obtain rfl : start = written.size := by omega
    rw [Nat.sub_self]
    exact ⟨written, .refl opened, hstart, opened.holdsAt_nil valid⟩

/-- One write behind another. -/
theorem Wrote.append (first : Wrote index reference d body d' body')
    (second : Wrote index reference d' body' d'' body'') (valid : d.Valid) {offset : Nat}
    {a b : Bytes} (ha : d'.HoldsAt body' offset a) (hb : d''.HoldsAt body'' (offset + a.length) b) :
    d''.HoldsAt body'' offset (a ++ b) :=
  (ha.wrote (valid.moves first.moves) first.opened second).append hb

theorem write_wrote (valid : d.Valid) (opened : d.OpenAt index reference body) {s : Scalar}
    (h : d.write s = .ok d') : ∃ body', Wrote index reference d body d' body' ∧
      body'.size = body.size + s.format.width ∧
      d'.HoldsAt body' body.size (s.encode d.endian) := by
  have hwrote := append_wrote valid opened (write_eq_ok.mp h).2
  rwa [Scalar.length_encode] at hwrote

/-- A scalar is written behind its padding. -/
theorem writeAligned_wrote (valid : d.Valid) (opened : d.OpenAt index reference body) {s : Scalar}
    (h : d.writeAligned s = .ok d') : ∃ body', Wrote index reference d body d' body' ∧
      d'.HoldsAt body' body.size (Bytes.zeros (padding body.size s.format.width) ++ s.encode d.endian)
      ∧ body'.size = body.size + padding body.size s.format.width + s.format.width := by
  unfold writeAligned at h
  simp only [bind_eq_ok] at h
  obtain ⟨d₁, halign, hwrite⟩ := h
  obtain ⟨body₁, hfirst, hstart, hzeros⟩ := align_wrote valid opened halign
  obtain ⟨body₂, hsecond, hsize, hholds⟩ :=
    write_wrote (valid.moves hfirst.moves) hfirst.opened hwrite
  have hpad := add_padding hstart
  refine ⟨body₂, hfirst.trans hsecond, ?_, by rw [hsize, hpad]⟩
  rw [hfirst.endian] at hholds
  rw [← hpad] at hholds
  exact hfirst.append hsecond valid hzeros (by rwa [Bytes.length_zeros])

/-! ### Write steps -/

/-- A write step adds its bytes. -/
theorem perform_wrote (valid : d.Valid) (opened : d.OpenAt index reference body) {step : WriteStep}
    (h : d.perform step = .ok d') : ∃ body', Wrote index reference d body d' body' ∧
      body'.size = body.size + (step.bytesAt d.endian body.size).length ∧
      d'.HoldsAt body' body.size (step.bytesAt d.endian body.size) := by
  -- Steps that align first write the padding too, so their bytes are told by the place they begin at.
  cases step with
  | scalar value =>
    rw [bytesAt, Scalar.length_encode]
    exact write_wrote valid opened h
  | aligned value =>
    obtain ⟨body', hwrote, hholds, hsize⟩ := writeAligned_wrote valid opened h
    refine ⟨body', hwrote, ?_, hholds⟩
    rw [bytesAt, List.length_append, Bytes.length_zeros, Scalar.length_encode, hsize, Nat.add_assoc]
  | bytes value => exact append_wrote valid opened h
  | zeros count => exact append_wrote valid opened h
  | align alignment =>
    obtain ⟨body', hwrote, hstart, hholds⟩ := align_wrote valid opened h
    refine ⟨body', hwrote, ?_, hholds⟩
    rw [bytesAt, Bytes.length_zeros, add_padding hstart]
  | nullReference =>
    have haligned : d.writeAligned (.u64 0) = .ok d' := h
    obtain ⟨body', hwrote, hholds, hsize⟩ := writeAligned_wrote valid opened haligned
    refine ⟨body', hwrote, ?_, ?_⟩
    · rw [bytesAt, List.length_append, Bytes.length_zeros, Bytes.length_zeros, hsize, Nat.add_assoc]
      rfl
    · rw [encode_zero] at hholds
      exact hholds
  | location container entry =>
    have hlocation : d.writeLocation container entry = .ok d' := h
    unfold writeLocation at hlocation
    simp only [bind_eq_ok] at hlocation
    obtain ⟨d₁, hcontainer, hentry⟩ := hlocation
    obtain ⟨body₁, hfirst, hholds₁, hsize₁⟩ := writeAligned_wrote valid opened hcontainer
    obtain ⟨body₂, hsecond, hsize₂, hholds₂⟩ :=
      write_wrote (valid.moves hfirst.moves) hfirst.opened hentry
    rw [hfirst.endian, hsize₁] at hholds₂
    refine ⟨body₂, hfirst.trans hsecond, ?_, hfirst.append hsecond valid hholds₁ ?_⟩
    · rw [hsize₂, hsize₁]
      simp only [bytesAt, List.length_append, Bytes.length_zeros, Scalar.length_encode]
      omega
    · rwa [List.length_append, Bytes.length_zeros, Scalar.length_encode, ← Nat.add_assoc]

/-- Write steps add their bytes one behind the other. -/
theorem performAll_wrote {steps : List WriteStep} (valid : d.Valid)
    (opened : d.OpenAt index reference body) (h : d.performAll steps = .ok d') :
    ∃ body', Wrote index reference d body d' body' ∧
      body'.size = body.size + (allBytesAt d.endian body.size steps).length ∧
      d'.HoldsAt body' body.size (allBytesAt d.endian body.size steps) := by
  induction steps generalizing d body with
  | nil =>
    cases h
    exact ⟨body, .refl opened, rfl, opened.holdsAt_nil valid⟩
  | cons step rest ih =>
    rw [performAll, List.foldlM_cons, bind_eq_ok] at h
    obtain ⟨d₁, hstep, hrest⟩ := h
    obtain ⟨body₁, hfirst, hsize₁, hholds₁⟩ := perform_wrote valid opened hstep
    obtain ⟨body₂, hsecond, hsize₂, hholds₂⟩ :=
      ih (valid.moves hfirst.moves) hfirst.opened hrest
    rw [hfirst.endian, hsize₁] at hsize₂ hholds₂
    refine ⟨body₂, hfirst.trans hsecond, ?_, hfirst.append hsecond valid hholds₁ hholds₂⟩
    rw [hsize₂, allBytesAt, List.length_append, Nat.add_assoc]

theorem performAll_singleton (d : Draft) (step : WriteStep) :
    d.performAll [step] = d.perform step := by
  rw [performAll, List.foldlM_cons]
  exact bind_pure _

/-! ### References -/

/-- A reference leaves a site behind, at the next multiple of the size of a slot. -/
theorem writeReference_wrote (valid : d.Valid) (opened : d.OpenAt index reference body)
    {target : Reference} (known : target.id < d.supply.next)
    (h : d.writeReference target = .ok d') : ∃ start body', Wrote index reference d body d' body' ∧
      alignUp body.size Pointer.slotSize = .ok start ∧ body'.size = start + Pointer.slotSize ∧
      (⟨start, target, d.encoding⟩ : Site) ∈ body'.sites := by
  have hmoves : Moves (· = d.encoding) d d' := writeReferenceAs_moves h known rfl
  unfold writeReference writeReferenceAs at h
  simp only [bind_eq_ok, active_eq_ok, Prod.exists] at h
  obtain ⟨d₁, halign, i, block, written, hactive, hwrite⟩ := h
  obtain ⟨body₁, hfirst, hstart, -⟩ := align_wrote valid opened halign
  obtain ⟨rfl, rfl, hreference⟩ := hfirst.opened.eq_of_active hactive
  obtain ⟨i', block', written', hactive', -, rfl⟩ := append_eq_ok.mp (write_eq_ok.mp hwrite).2
  have hset := setBody_active
    { written with sites := written.sites ++ [⟨written.size, target, d.encoding⟩] } hactive
  rw [hset] at hactive'
  cases hactive'
  set site : Site := ⟨written.size, target, d.encoding⟩
  set sited : Body := { written with sites := written.sites ++ [site] }
  refine ⟨written.size, { sited with size := written.size + Pointer.slotSize }, ?_, hstart, rfl,
    List.mem_append_right _ (List.mem_singleton_self _)⟩
  exact
    { opened := by
        have hopen := setBody_active { sited with size := written.size + Pointer.slotSize } hset
        rw [grown, Scalar.length_encode]
        exact ⟨_, hopen, hreference⟩
      moves := hmoves
      units := hfirst.units
      grows := hfirst.grows.trans ⟨rfl, rfl, Nat.le_add_right _ _, List.prefix_refl _, [site], rfl,
        fun s hs => List.mem_singleton.mp hs ▸ Nat.le_refl _⟩ }

/-- A text slot is a site followed by two words. -/
theorem writeText_wrote (valid : d.Valid) (opened : d.OpenAt index reference body)
    {target : Reference} (known : target.id < d.supply.next) {byteCount charCount : UInt32}
    (h : d.writeText target byteCount charCount = .ok d') : ∃ start body',
      Wrote index reference d body d' body' ∧ alignUp body.size Pointer.slotSize = .ok start ∧
      body'.size = start + Pointer.slotSize + 4 + 4 ∧
      (⟨start, target, d.encoding⟩ : Site) ∈ body'.sites ∧
      d'.HoldsAt body' (start + Pointer.slotSize)
        ((Scalar.u32 byteCount).encode d.endian ++ (Scalar.u32 charCount).encode d.endian) := by
  unfold writeText at h
  simp only [bind_eq_ok] at h
  obtain ⟨d₁, hsite, d₂, hbytes, hchars⟩ := h
  obtain ⟨start, body₁, hfirst, hstart, hsize₁, hmem⟩ := writeReference_wrote valid opened known hsite
  have hvalid₁ := valid.moves hfirst.moves
  obtain ⟨body₂, hsecond, hsize₂, hholds₂⟩ := write_wrote hvalid₁ hfirst.opened hbytes
  obtain ⟨body₃, hthird, hsize₃, hholds₃⟩ :=
    write_wrote (hvalid₁.moves hsecond.moves) hsecond.opened hchars
  rw [hfirst.endian, hsize₁] at hholds₂
  rw [hsecond.endian, hfirst.endian, hsize₂, hsize₁] at hholds₃
  refine ⟨start, body₃, (hfirst.trans hsecond).trans hthird, hstart, ?_, ?_, ?_⟩
  · rw [hsize₃, hsize₂, hsize₁]
    rfl
  · exact (hsecond.trans hthird).grows.mem_sites hmem
  · exact hsecond.append hthird hvalid₁ hholds₂ (by rwa [Scalar.length_encode])

/-! ### Blocks -/

/-- Registering a block leaves the open one as it is. -/
theorem newBlock_wrote (opened : d.OpenAt index reference body) {alignment : Nat}
    {limit : Option Nat} {result : Reference × Draft} (h : d.newBlock alignment limit = .ok result)
    (word : alignment < wordLimit) : Wrote index reference d body result.2 body := by
  have hmove : Move (· = d.encoding) d result.2 := newBlock_move h word
  unfold newBlock at h
  simp only [refuse_if_eq_ok, pure_eq_ok] at h
  obtain ⟨-, rfl⟩ := h
  obtain ⟨block, hactive, hreference⟩ := opened
  obtain ⟨hcurrent, hfound, hbody⟩ := active?_eq_some.mp hactive
  refine
    { opened := ⟨block, active?_eq_some.mpr ⟨hcurrent, ?_, hbody⟩, hreference⟩
      moves := .single hmove
      units := rfl
      grows := .refl body }
  show (d.blocks ++ _)[index]? = some block
  rw [List.getElem?_append_left (List.getElem?_eq_some_iff.mp hfound).1]
  exact hfound

/-- A mark is set at the cursor. -/
theorem mark_wrote (opened : d.OpenAt index reference body) {target : Reference}
    (known : target.id < d.supply.next) (h : d.mark target = .ok d') : ∃ body',
    Wrote index reference d body d' body' ∧ body'.size = body.size ∧
      (⟨target, body.size⟩ : Mark) ∈ body'.marks := by
  have hmove : Move (· = d.encoding) d d' := mark_move h known
  unfold mark at h
  simp only [bind_eq_ok, active_eq_ok, Prod.exists, refuse_if_eq_ok, pure_eq_ok] at h
  obtain ⟨i, block, written, hactive, unit, -, -, rfl⟩ := h
  obtain ⟨rfl, rfl, hreference⟩ := opened.eq_of_active hactive
  refine ⟨{ written with marks := written.marks ++ [⟨target, written.size⟩] }, ?_, rfl,
    List.mem_append_right _ (List.mem_singleton_self _)⟩
  exact
    { opened := ⟨_, setBody_active _ hactive, hreference⟩
      moves := .single hmove
      units := rfl
      grows := ⟨rfl, rfl, Nat.le_refl _, List.prefix_append _ _, [], (List.append_nil _).symm,
        fun site hsite => absurd hsite List.not_mem_nil⟩ }

/-- Whether a draft has been worked on inside the open data unit. -/
structure Continues (d d' : Draft) : Prop where
  moves : Moves (· = d.encoding) d d'
  units : d'.units = d.units
  currentUnit : d'.currentUnit = d.currentUnit

theorem Continues.refl (d : Draft) : Continues d d := ⟨.refl, rfl, rfl⟩

theorem Continues.encoding (h : Continues d d') : d'.encoding = d.encoding := h.moves.encoding_eq rfl

theorem Continues.trans (h : Continues d d') (h' : Continues d' d'') : Continues d d'' :=
  ⟨h.moves.trans (h.encoding ▸ h'.moves), h'.units.trans h.units,
    h'.currentUnit.trans h.currentUnit⟩

/-- An opened block is empty. -/
theorem openBlock_opened (h : d.openBlock reference = .ok d') : Continues d d' ∧
    ∃ index body, d'.OpenAt index reference body ∧ body.size = 0 ∧
      d.currentUnit = some body.unit := by
  have hmove : Move (· = d.encoding) d d' := openBlock_move h
  obtain ⟨index, unit, block, -, hunit, hindex, hfound, -, rfl⟩ := openBlock_eq_ok.mp h
  have hreference := reference_of_blockIndex? hindex hfound
  refine ⟨⟨.single hmove, rfl, rfl⟩, index, ⟨unit, d.buffer.length, 0, [], []⟩, ?_, rfl, hunit⟩
  refine ⟨{ block with body := some ⟨unit, d.buffer.length, 0, [], []⟩ },
    active?_eq_some.mpr ⟨rfl, ?_, rfl⟩, hreference⟩
  exact List.getElem?_set_self (List.getElem?_eq_some_iff.mp hfound).1

/-- Closing the open block keeps its body. -/
theorem closeBlock_closed (h : d.closeBlock = .ok d') : Continues d d' := by
  have hmove : Move (· = d.encoding) d d' := closeBlock_move h
  unfold closeBlock at h
  simp only [bind_eq_ok, active_eq_ok, pure_eq_ok] at h
  obtain ⟨_, _, padded, _, rfl⟩ := h
  exact ⟨.single hmove, rfl, rfl⟩

theorem Wrote.continues (h : Wrote index reference d body d' body') (valid : d.Valid)
    (opened : d.OpenAt index reference body) : Continues d d' := by
  refine ⟨h.moves, h.units, ?_⟩
  obtain ⟨block, hactive, -⟩ := opened
  obtain ⟨block', hactive', -⟩ := h.opened
  rw [((valid.moves h.moves).cursor _ _ _ hactive').2, (valid.cursor _ _ _ hactive).2, h.grows.unit]

theorem newBlock_continues {alignment : Nat} {limit : Option Nat} {result : Reference × Draft}
    (h : d.newBlock alignment limit = .ok result) (word : alignment < wordLimit) :
    Continues d result.2 := by
  have hmove : Move (· = d.encoding) d result.2 := newBlock_move h word
  unfold newBlock at h
  simp only [refuse_if_eq_ok, pure_eq_ok] at h
  obtain ⟨_, rfl⟩ := h
  exact ⟨.single hmove, rfl, rfl⟩

/-! ### Data units -/

theorem openUnit_eq_ok {unit : Nat} (h : d.openUnit unit = .ok d') :
    d' = { d with currentUnit := some unit } := by
  unfold openUnit at h
  cases hunit : d.currentUnit with
  | some current => simp only [hunit, bind_eq_ok, throw_ne_ok, false_and, exists_false] at h
  | none =>
    simp only [hunit, refuse_if_eq_ok, pure_eq_ok] at h
    exact h.2.symm

theorem setRoot_eq_ok {root : Reference} (h : d.setRoot root = .ok d') : ∃ unit,
    d.currentUnit = some unit ∧
      d' = { d with units := d.units.modify unit ({ · with root := some root }) } := by
  unfold setRoot at h
  simp only [bind_eq_ok, requireUnit_eq_ok, pure_eq_ok] at h
  obtain ⟨unit, hunit, rfl⟩ := h
  exact ⟨unit, hunit, rfl⟩

theorem closeUnit_eq_ok (h : d.closeUnit = .ok d') : d' = { d with currentUnit := none } := by
  unfold closeUnit at h
  simp only [bind_eq_ok, requireNoBlock_eq_ok, requireUnit_eq_ok, pure_eq_ok] at h
  obtain ⟨_, _, _, _, rfl⟩ := h
  rfl

end Draft

end ObjectPack
