import ObjectPack.Draft.Section
import ObjectPack.Proofs.Draft.Write

/-!
# Fillings

What stands in a block is made of entries: a write that is no reference, a reference, a mark.  What an entry
adds depends on nothing but the byte order and the position in the block, so entries alone tell what a
block holds after them (`Filling.of`), wherever in the buffer the block stands.

Every operation that writes puts its entries into the open block and does nothing else
(`Draft.apply_puts`).
-/

namespace ObjectPack

open Outcome WriteStep

/-- What is put at the cursor of a block. -/
inductive Entry where
  /-- A write that is no reference. -/
  | write (step : WriteStep)
  /-- A reference behind the padding that it needs. -/
  | reference (target : Reference) (encoding : PointerEncoding)
  | mark (target : Reference)
  deriving DecidableEq, Repr

namespace Entry

/-- The bytes that an entry adds at a position of a block. -/
def bytesAt (e : Endian) (position : Nat) : Entry → Bytes
  | .write step => step.bytesAt e position
  | .reference target _ =>
    Bytes.zeros (padding position Pointer.slotSize) ++ Section.placeholder e target
  | .mark _ => []

/-- The sites that an entry adds at a position of a block. -/
def sitesAt (position : Nat) : Entry → List Site
  | .reference target encoding => [⟨position + padding position Pointer.slotSize, target, encoding⟩]
  | _ => []

/-- The marks that an entry sets at a position of a block. -/
def marksAt (position : Nat) : Entry → List Mark
  | .mark target => [⟨target, position⟩]
  | _ => []

end Entry

/-- The entries of an operation; `encoding` is that of the draft. -/
def Operation.entries (encoding : PointerEncoding) : Operation → List Entry
  | .write step => [.write step]
  | .writeReference reference => [.reference reference encoding]
  | .writeReferenceAs reference encoding => [.reference reference encoding]
  | .writeText reference byteCount charCount =>
    [.reference reference encoding, .write (.scalar (.u32 byteCount)), .write (.scalar (.u32 charCount))]
  | .mark reference => [.mark reference]
  | _ => []

/-- What stands in a block. -/
structure Filling where
  content : Bytes
  sites : List Site
  marks : List Mark
  deriving DecidableEq, Repr

namespace Filling

/-- A filling with an entry behind it. -/
def add (e : Endian) (f : Filling) (entry : Entry) : Filling where
  content := f.content ++ entry.bytesAt e f.content.length
  sites := f.sites ++ entry.sitesAt f.content.length
  marks := f.marks ++ entry.marksAt f.content.length

/-- The filling of a block that nothing has been put into. -/
def empty : Filling := ⟨[], [], []⟩

/-- What entries put into a block. -/
def of (e : Endian) (entries : List Entry) : Filling := entries.foldl (add e) empty

end Filling

/-- A body with an entry behind it. -/
def Body.put (e : Endian) (body : Body) (entry : Entry) : Body :=
  { body with
    size := body.size + (entry.bytesAt e body.size).length
    sites := body.sites ++ entry.sitesAt body.size
    marks := body.marks ++ entry.marksAt body.size }

namespace Draft

variable {d d' : Draft} {index : Nat} {block : Block} {body : Body} {allowed : PointerEncoding → Prop}

/-- What stands in a body. -/
def filling (d : Draft) (body : Body) : Filling :=
  ⟨(d.buffer.drop body.start).take body.size, body.sites, body.marks⟩

/-- The draft with another body of block `index` and `b` behind its buffer. -/
def became (d : Draft) (index : Nat) (body : Body) (b : Bytes) : Draft :=
  { d.setBody index body with buffer := d.buffer ++ b }

/-- The draft with an entry put into block `index`, whose body was `body`. -/
def put (d : Draft) (index : Nat) (body : Body) (entry : Entry) : Draft :=
  d.became index (body.put d.endian entry) (entry.bytesAt d.endian body.size)

/-! ### Entries -/

theorem became_became (d : Draft) (index : Nat) (first second : Body) (b c : Bytes) :
    (d.became index first b).became index second c = d.became index second (b ++ c) := by
  have hblocks : ((d.setBody index first).setBody index second).blocks
      = (d.setBody index second).blocks := by rw [setBody_setBody]
  unfold became
  rw [← List.append_assoc]
  show ({ d with
    blocks := ((d.setBody index first).setBody index second).blocks
    buffer := d.buffer ++ b ++ c } : Draft) = _
  rw [hblocks]
  rfl

theorem became_nil (active : d.active? = some (index, block, body)) : d.became index body [] = d := by
  obtain ⟨-, hfound, hbody⟩ := active?_eq_some.mp active
  have hblocks : (d.setBody index body).blocks = d.blocks := by
    rw [setBody_blocks active, ← hbody]
    obtain ⟨hlt, rfl⟩ := List.getElem?_eq_some_iff.mp hfound
    exact List.set_getElem_self hlt
  unfold became
  rw [List.append_nil]
  show ({ d with blocks := (d.setBody index body).blocks } : Draft) = d
  rw [hblocks]

theorem became_active (active : d.active? = some (index, block, body)) (body' : Body) (b : Bytes) :
    (d.became index body' b).active? = some (index, { block with body := some body' }, body') :=
  setBody_active _ active

theorem grown_active (active : d.active? = some (index, block, body)) (b : Bytes) :
    (d.grown index body b).active? = some (index,
      { block with body := some { body with size := body.size + b.length } },
      { body with size := body.size + b.length }) :=
  setBody_active _ active

/-- Bytes are appended to the open block. -/
theorem append_grown {b : Bytes} (h : d.append b = .ok d') (active : d.active? = some (index, block, body)) :
    d' = d.grown index body b := by
  obtain ⟨i, bl, c, hactive, -, rfl⟩ := append_eq_ok.mp h
  rw [active] at hactive
  cases hactive
  rfl

/-- Bytes that are appended twice are appended at once. -/
theorem grown_grown (d : Draft) (index : Nat) (body : Body) (b c : Bytes) :
    (d.grown index body b).grown index { body with size := body.size + b.length } c = d.grown index body (b ++ c) := by
  show (d.became index _ b).became index _ c = d.became index _ (b ++ c)
  rw [became_became, List.length_append, ← Nat.add_assoc]

/-- What has been appended to the open block. -/
theorem Appends.grown (h : Appends d d') (active : d.active? = some (index, block, body)) :
    ∃ b, d' = d.grown index body b := by
  induction h with
  | refl => exact ⟨[], (became_nil active).symm⟩
  | tail _ happend ih =>
    obtain ⟨b, rfl⟩ := ih
    obtain ⟨c, happend⟩ := happend
    exact ⟨b ++ c, (append_grown happend (grown_active active b)).trans (grown_grown d index body b c)⟩

/-- What stands in the block that an entry has been put into. -/
theorem put_filling (cursor : body.start + body.size = d.buffer.length) (index : Nat) (entry : Entry) :
    (d.put index body entry).filling (body.put d.endian entry)
      = (d.filling body).add d.endian entry := by
  have hlength : (d.buffer.drop body.start).length = body.size := by
    rw [List.length_drop]
    omega
  have hall : (d.buffer.drop body.start).take body.size = d.buffer.drop body.start :=
    List.take_of_length_le (Nat.le_of_eq hlength)
  unfold filling Filling.add
  rw [hall, hlength]
  congr 1
  show ((d.buffer ++ _).drop body.start).take _ = _
  rw [List.drop_append_of_le_length (by omega), List.take_of_length_le]
  rw [List.length_append, hlength]
  exact Nat.le_refl _

/-- An entry that has been put into the open block leaves the block open. -/
theorem put_active (active : d.active? = some (index, block, body)) (entry : Entry) :
    (d.put index body entry).active?
      = some (index, { block with body := some (body.put d.endian entry) }, body.put d.endian entry) :=
  setBody_active _ active

theorem align_active {alignment : Nat} (h : d.align alignment = .ok d') :
    ∃ index block body, d.active? = some (index, block, body) := by
  unfold align position at h
  simp only [bind_eq_ok, active_eq_ok, pure_eq_ok, Prod.exists] at h
  obtain ⟨-, ⟨index, block, body, hactive, -⟩, -⟩ := h
  exact ⟨index, block, body, hactive⟩

/-- Nothing is written unless a block is open. -/
theorem perform_active {step : WriteStep} (h : d.perform step = .ok d') :
    ∃ index block body, d.active? = some (index, block, body) := by
  have happend : ∀ {b : Bytes}, d.append b = .ok d' →
      ∃ index block body, d.active? = some (index, block, body) := by
    intro b happend
    obtain ⟨index, block, body, hactive, -⟩ := append_eq_ok.mp happend
    exact ⟨index, block, body, hactive⟩
  have haligned : ∀ {s : Scalar} {d₁ : Draft}, d.writeAligned s = .ok d₁ →
      ∃ index block body, d.active? = some (index, block, body) := by
    intro s d₁ haligned
    unfold writeAligned at haligned
    simp only [bind_eq_ok] at haligned
    obtain ⟨_, halign, -⟩ := haligned
    exact align_active halign
  cases step with
  | scalar value => exact happend (write_eq_ok.mp h).2
  | aligned value => exact haligned h
  | bytes value => exact happend h
  | zeros count => exact happend h
  | align alignment => exact align_active h
  | nullReference => exact haligned (s := .u64 0) h
  | location container entry =>
    have hlocation : d.writeLocation container entry = .ok d' := h
    unfold writeLocation at hlocation
    simp only [bind_eq_ok] at hlocation
    obtain ⟨_, hcontainer, -⟩ := hlocation
    exact haligned hcontainer

/-- A write puts its bytes into the open block. -/
theorem perform_put (valid : d.Valid) (step : WriteStep) (h : d.perform step = .ok d')
    (active : d.active? = some (index, block, body)) : d' = d.put index body (.write step) := by
  obtain ⟨b, rfl⟩ := (perform_appends h).grown active
  obtain ⟨body', hwrote, hsize, hholds⟩ := perform_wrote valid ⟨block, active, rfl⟩ h
  obtain ⟨-, rfl, -⟩ := hwrote.opened.eq_of_active (setBody_active _ active)
  have hlength : b.length = (step.bytesAt d.endian body.size).length := Nat.add_left_cancel hsize
  obtain rfl : b = step.bytesAt d.endian body.size := by
    have hcursor := (valid.cursor index block body active).1
    refine List.ext_getElem? fun i => ?_
    by_cases hi : i < b.length
    · rw [← hholds.content i (hlength ▸ hi)]
      show _ = (d.buffer ++ b)[body.start + body.size + i]?
      rw [hcursor, List.getElem?_append_right (Nat.le_add_right _ _), Nat.add_sub_cancel_left]
    · rw [List.getElem?_eq_none (by omega), List.getElem?_eq_none (by omega)]
  show d.became index _ _ = d.became index _ _
  unfold Body.put Entry.sitesAt Entry.marksAt Entry.bytesAt
  simp only [List.append_nil]

/-- A reference puts its padding and its slot into the open block. -/
theorem writeReferenceAs_put (valid : d.Valid) {target : Reference} {encoding : PointerEncoding}
    (h : d.writeReferenceAs target encoding = .ok d') (active : d.active? = some (index, block, body)) :
    d' = d.put index body (.reference target encoding) := by
  obtain ⟨d₁, i, bl, c, halign, hactive, -, -, rfl⟩ := writeReferenceAs_eq_ok.mp h
  obtain ⟨_, hwrote, hstart, -⟩ := align_wrote valid ⟨block, active, rfl⟩ halign
  obtain rfl := perform_put valid (.align Pointer.slotSize) halign active
  rw [put_active active] at hactive
  cases hactive
  have hsize : (body.put d.endian (.write (.align Pointer.slotSize))).size
      = body.size + padding body.size Pointer.slotSize :=
    congrArg (body.size + ·) (Bytes.length_zeros _)
  have hslot : (d.placeholder target).length = Pointer.slotSize := Scalar.length_encode ..
  show (d.became index _ _).became index _ (d.placeholder target) = d.became index _ _
  rw [became_became]
  congr 1
  unfold Body.put Entry.sitesAt Entry.marksAt Entry.bytesAt
  simp only [List.append_nil, bytesAt, List.length_append, Bytes.length_zeros, Nat.add_assoc]
  rfl

/-- A mark is put at the cursor of the open block. -/
theorem mark_put {target : Reference} (h : d.mark target = .ok d')
    (active : d.active? = some (index, block, body)) : d' = d.put index body (.mark target) := by
  unfold mark at h
  simp only [bind_eq_ok, active_eq_ok, Prod.exists, refuse_if_eq_ok, pure_eq_ok] at h
  obtain ⟨i, bl, c, hactive, unit, -, -, rfl⟩ := h
  rw [active] at hactive
  cases hactive
  show d.setBody index _ = d.became index _ []
  unfold became Body.put Entry.sitesAt Entry.marksAt Entry.bytesAt
  simp only [List.append_nil]
  rfl

/-! ### Operations -/

/-- Whether entries have been put into a block, one behind the other. -/
inductive Puts (index : Nat) : Draft → Body → List Entry → Draft → Body → Prop
  | done (d : Draft) (body : Body) : Puts index d body [] d body
  | put {d d' : Draft} {body body' : Body} {entry : Entry} {entries : List Entry}
      (rest : Puts index (d.put index body entry) (body.put d.endian entry) entries d' body') :
      Puts index d body (entry :: entries) d' body'

theorem Puts.single (index : Nat) (d : Draft) (body : Body) (entry : Entry) :
    Puts index d body [entry] (d.put index body entry) (body.put d.endian entry) :=
  .put (.done _ _)

/-- What entries leave of a draft and of its open block. -/
structure Puts.Leaves (index : Nat) (block : Block) (d : Draft) (body : Body) (entries : List Entry)
    (d' : Draft) (body' : Body) : Prop where
  active : d'.active? = some (index, { block with body := some body' }, body')
  filling : d'.filling body' = entries.foldl (Filling.add d.endian) (d.filling body)
  unit : body'.unit = body.unit
  eq : ∃ b, d' = d.became index body' b

theorem Puts.leaves {entries : List Entry} {body' : Body} (h : Puts index d body entries d' body')
    (cursor : body.start + body.size = d.buffer.length)
    (active : d.active? = some (index, block, body)) : Leaves index block d body entries d' body' := by
  induction h generalizing block with
  | done d body =>
    have hbody := (active?_eq_some.mp active).2.2
    exact ⟨by rw [active, ← hbody], rfl, rfl, [], (became_nil active).symm⟩
  | @put d d' body body' entry entries _ ih =>
    have hcursor : (body.put d.endian entry).start + (body.put d.endian entry).size
        = (d.put index body entry).buffer.length := by
      show body.start + (body.size + _) = (d.buffer ++ _).length
      rw [List.length_append]
      omega
    obtain ⟨hactive, hfilling, hunit, b, heq⟩ := ih hcursor (put_active active entry)
    refine ⟨hactive, ?_, hunit, ?_⟩
    · rw [hfilling, put_filling cursor index entry]
      rfl
    · rw [heq]
      exact ⟨_, became_became d index _ _ _ _⟩

/-- An operation that writes puts its entries into the open block. -/
theorem apply_puts (valid : d.Valid) {op : Operation} (known : op.KnownIn d) (h : d.apply op = .ok d')
    (writes : op.entries d.encoding ≠ []) : ∃ index block body body',
      d.active? = some (index, block, body) ∧ Puts index d body (op.entries d.encoding) d' body' := by
  -- A text is written as a slot and two counts; every other operation that writes puts one entry.
  cases op with
  | write step =>
    obtain ⟨index, block, body, hactive⟩ := perform_active h
    obtain rfl := perform_put valid step h hactive
    exact ⟨index, block, body, _, hactive, .single ..⟩
  | writeReference target =>
    obtain ⟨_, _, _, _, halign, -⟩ := writeReferenceAs_eq_ok.mp h
    obtain ⟨index, block, body, hactive⟩ := align_active halign
    obtain rfl := writeReferenceAs_put valid h hactive
    exact ⟨index, block, body, _, hactive, .single ..⟩
  | writeReferenceAs target encoding =>
    obtain ⟨_, _, _, _, halign, -⟩ := writeReferenceAs_eq_ok.mp h
    obtain ⟨index, block, body, hactive⟩ := align_active halign
    obtain rfl := writeReferenceAs_put valid h hactive
    exact ⟨index, block, body, _, hactive, .single ..⟩
  | writeText target byteCount charCount =>
    have htext : d.writeText target byteCount charCount = .ok d' := h
    unfold writeText at htext
    simp only [bind_eq_ok] at htext
    obtain ⟨d₁, hslot, d₂, hbytes, hchars⟩ := htext
    obtain ⟨_, _, _, _, halign, -⟩ := writeReferenceAs_eq_ok.mp hslot
    obtain ⟨index, block, body, hactive⟩ := align_active halign
    have hmoves : Moves (fun _ => True) d d₁ := writeReferenceAs_moves hslot (known target rfl) trivial
    have hmove : Move (fun _ => True) d₁ d₂ := write_move hbytes
    have hvalid₁ := valid.moves hmoves
    have hvalid₂ := hvalid₁.move hmove
    obtain rfl := writeReferenceAs_put valid hslot hactive
    have hactive₁ := put_active hactive (.reference target d.encoding)
    obtain rfl := perform_put hvalid₁ (.scalar (.u32 byteCount)) hbytes hactive₁
    have hactive₂ := put_active hactive₁ (.write (.scalar (.u32 byteCount)))
    obtain rfl := perform_put hvalid₂ (.scalar (.u32 charCount)) hchars hactive₂
    exact ⟨index, block, body, _, hactive, .put (.put (.single ..))⟩
  | mark target =>
    have hmark : d.mark target = .ok d' := h
    unfold mark at hmark
    simp only [bind_eq_ok, active_eq_ok, Prod.exists] at hmark
    obtain ⟨index, block, body, hactive, -⟩ := hmark
    obtain rfl := mark_put h hactive
    exact ⟨index, block, body, _, hactive, .single ..⟩
  | _ => exact absurd rfl writes

end Draft

end ObjectPack
