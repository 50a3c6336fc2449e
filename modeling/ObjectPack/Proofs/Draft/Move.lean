import Mathlib.Logic.Relation
import ObjectPack.Proofs.Draft.Run
import ObjectPack.Proofs.Outcome

/-!
# Moves of drafts

The operations on drafts are made of few elementary changes, the moves: a move says what it needs
and what the draft looks like after it.  `apply_moves` takes every operation apart once; whatever
holds of all drafts is then shown move by move.

The cursor of the open block is the size of its body, so all that writes goes through
`Move.append` and `Move.site`, and only these and `Move.closeBlock` touch the buffer.
-/

namespace ObjectPack.Draft

open Outcome Relation

/-! ### The open block -/

theorem active?_eq_some {d : Draft} {index : Nat} {block : Block} {body : Body} :
    d.active? = some (index, block, body) ↔
      d.currentBlock = some index ∧ d.blocks[index]? = some block ∧ block.body = some body := by
  unfold active?
  constructor
  · intro h
    obtain ⟨i, hi, h⟩ := Option.bind_eq_some_iff.mp h
    obtain ⟨b, hb, h⟩ := Option.bind_eq_some_iff.mp h
    obtain ⟨c, hc, h⟩ := Option.bind_eq_some_iff.mp h
    cases h
    exact ⟨hi, hb, hc⟩
  · rintro ⟨hi, hb, hc⟩
    simp only [hi, hb, hc, Option.bind_eq_bind, Option.bind_some, Option.pure_def]

@[simp] theorem active_eq_ok {d : Draft} {found : Nat × Block × Body} :
    d.active = .ok found ↔ d.active? = some found := by
  unfold active
  cases d.active? with
  | none =>
    constructor <;> intro h <;> cases h
  | some a =>
    constructor <;> intro h <;> cases h <;> rfl

@[simp] theorem requireNoBlock_eq_ok {d : Draft} {u : Unit} :
    d.requireNoBlock = .ok u ↔ d.active? = none := by
  unfold requireNoBlock
  cases d.active? with
  | none =>
    constructor <;> intro <;> rfl
  | some a =>
    constructor <;> intro h <;> cases h

@[simp] theorem requireUnit_eq_ok {d : Draft} {unit : Nat} :
    d.requireUnit = .ok unit ↔ d.currentUnit = some unit := by
  unfold requireUnit
  cases d.currentUnit with
  | none =>
    constructor <;> intro h <;> cases h
  | some a =>
    constructor <;> intro h <;> cases h <;> rfl

/-! ### Moves -/

/-- The draft with `b` behind the content of block `index`, whose body was `body`. -/
def grown (d : Draft) (index : Nat) (body : Body) (b : Bytes) : Draft :=
  { d.setBody index { body with size := body.size + b.length } with buffer := d.buffer ++ b }

/-- The bytes that a site holds until its draft is linked. -/
def placeholder (d : Draft) (reference : Reference) : Bytes :=
  (Scalar.i64 (Int64.ofNat reference.id)).encode d.endian

/-- One elementary change of a draft; sites are written in allowed encodings only. -/
inductive Move (allowed : PointerEncoding → Prop) : Draft → Draft → Prop
  | takeReference (d : Draft) : Move allowed d { d with supply := ⟨d.supply.next + 1⟩ }
  | registerUnit (d : Draft) (signature : Digest)
      (fresh : ∀ u ∈ d.units, u.signature ≠ signature) :
      Move allowed d { d with units := d.units ++ [⟨signature, none⟩] }
  | openUnit (d : Draft) (index : Nat) (closed : d.currentUnit = none)
      (known : index < d.units.length) : Move allowed d { d with currentUnit := some index }
  | closeUnit (d : Draft) (closed : d.active? = none) : Move allowed d { d with currentUnit := none }
  | setRoot (d : Draft) (unit : Nat) (reference : Reference)
      (opened : d.currentUnit = some unit) (known : reference.id < d.supply.next) :
      Move allowed d { d with units := d.units.modify unit ({ · with root := some reference }) }
  | setEncoding (d : Draft) (encoding : PointerEncoding) (mode : allowed encoding) :
      Move allowed d { d with encoding := encoding }
  | newBlock (d : Draft) (alignment : Nat) (limit : Option Nat)
      (power : isPowerOfTwo alignment = true) (word : alignment < wordLimit) :
      Move allowed d { d with
        supply := ⟨d.supply.next + 1⟩
        blocks := d.blocks ++ [⟨⟨d.supply.next⟩, alignment, limit, none⟩] }
  | openBlock (d : Draft) (index unit : Nat) (block : Block) (closed : d.active? = none)
      (opened : d.currentUnit = some unit) (found : d.blocks[index]? = some block)
      (fresh : block.body = none) :
      Move allowed d { d with
        blocks := d.blocks.set index
          { block with body := some ⟨unit, d.buffer.length, 0, [], []⟩ }
        currentBlock := some index }
  | closeBlock (d : Draft) (index padded : Nat) (block : Block) (body : Body)
      (active : d.active? = some (index, block, body))
      (rounded : alignUp body.size block.alignment = .ok padded) :
      Move allowed d { d with buffer := d.buffer.padTo (body.start + padded), currentBlock := none }
  | append (d : Draft) (index : Nat) (block : Block) (body : Body) (b : Bytes)
      (active : d.active? = some (index, block, body))
      (fits : ∀ limit ∈ block.limit, body.size + b.length ≤ limit) :
      Move allowed d (d.grown index body b)
  | site (d : Draft) (index : Nat) (block : Block) (body : Body) (reference : Reference)
      (encoding : PointerEncoding) (active : d.active? = some (index, block, body))
      (fits : ∀ limit ∈ block.limit, body.size + Pointer.slotSize ≤ limit)
      (aligned : body.size % Pointer.slotSize = 0) (known : reference.id < d.supply.next)
      (mode : allowed encoding) :
      Move allowed d (d.grown index
        { body with sites := body.sites ++ [⟨body.size, reference, encoding⟩] }
        (d.placeholder reference))
  | mark (d : Draft) (index unit : Nat) (block : Block) (body : Body) (reference : Reference)
      (active : d.active? = some (index, block, body)) (opened : d.currentUnit = some unit)
      (unnamed : d.blockIndex? reference = none) (unmarked : d.isMarked unit reference = false)
      (known : reference.id < d.supply.next) :
      Move allowed d (d.setBody index { body with marks := body.marks ++ [⟨reference, body.size⟩] })

/-- Moves, one after another. -/
abbrev Moves (allowed : PointerEncoding → Prop) : Draft → Draft → Prop :=
  ReflTransGen (Move allowed)

variable {allowed : PointerEncoding → Prop}

/-! ### Data units and blocks -/

theorem unitIndex_moves (d : Draft) (signature : Digest) :
    Moves allowed d (d.unitIndex signature).2 := by
  unfold unitIndex
  split
  · exact .refl
  · rename_i hnone
    refine .single (.registerUnit d signature fun u hu heq => ?_)
    have h := List.findIdx?_eq_none_iff.mp hnone u hu
    simp only [heq, decide_true, reduceCtorEq] at h

theorem openUnit_move {d d' : Draft} {index : Nat} (h : d.openUnit index = .ok d') :
    Move allowed d d' := by
  unfold openUnit at h
  cases hunit : d.currentUnit with
  | some unit => simp only [hunit, bind_eq_ok, throw_ne_ok, false_and, exists_false] at h
  | none =>
    simp only [hunit, refuse_if_eq_ok, pure_eq_ok] at h
    exact h.2 ▸ .openUnit d index hunit (Nat.not_le.mp h.1)

theorem closeUnit_move {d d' : Draft} (h : d.closeUnit = .ok d') : Move allowed d d' := by
  unfold closeUnit at h
  simp only [bind_eq_ok, requireNoBlock_eq_ok, requireUnit_eq_ok, pure_eq_ok] at h
  obtain ⟨-, hclosed, -, -, rfl⟩ := h
  exact .closeUnit d hclosed

theorem setRoot_move {d d' : Draft} {reference : Reference} (h : d.setRoot reference = .ok d')
    (known : reference.id < d.supply.next) : Move allowed d d' := by
  unfold setRoot at h
  simp only [bind_eq_ok, requireUnit_eq_ok, pure_eq_ok] at h
  obtain ⟨unit, hunit, rfl⟩ := h
  exact .setRoot d unit reference hunit known

theorem newBlock_move {d : Draft} {alignment : Nat} {limit : Option Nat}
    {result : Reference × Draft} (h : d.newBlock alignment limit = .ok result)
    (word : alignment < wordLimit) : Move allowed d result.2 := by
  unfold newBlock at h
  simp only [refuse_if_eq_ok, pure_eq_ok, Decidable.not_not] at h
  obtain ⟨hpower, rfl⟩ := h
  exact .newBlock d alignment limit hpower word

/-- What opening a block needs and does. -/
theorem openBlock_eq_ok {d d' : Draft} {reference : Reference} :
    d.openBlock reference = .ok d' ↔ ∃ index unit block, d.active? = none ∧
      d.currentUnit = some unit ∧ d.blockIndex? reference = some index ∧
      d.blocks[index]? = some block ∧ block.body = none ∧
      d' = { d with
        blocks := d.blocks.set index
          { block with body := some ⟨unit, d.buffer.length, 0, [], []⟩ }
        currentBlock := some index } := by
  unfold openBlock
  simp only [bind_eq_ok, requireNoBlock_eq_ok, requireUnit_eq_ok]
  constructor
  · rintro ⟨-, hclosed, unit, hunit, h⟩
    split at h
    · simp only [throw_ne_ok] at h
    · rename_i index hindex
      simp only [bind_eq_ok, indexed_eq_ok, refuse_if_eq_ok, pure_eq_ok, Bool.not_eq_true,
        Option.isSome_eq_false_iff, Option.isNone_iff_eq_none] at h
      obtain ⟨block, hfound, hfresh, rfl⟩ := h
      exact ⟨index, unit, block, hclosed, hunit, hindex, hfound, hfresh, rfl⟩
  · rintro ⟨index, unit, block, hclosed, hunit, hindex, hfound, hfresh, rfl⟩
    refine ⟨(), hclosed, unit, hunit, ?_⟩
    simp only [hindex, bind_eq_ok, indexed_eq_ok, refuse_if_eq_ok, pure_eq_ok]
    exact ⟨block, hfound, by rw [hfresh]; decide, rfl⟩

theorem openBlock_move {d d' : Draft} {reference : Reference}
    (h : d.openBlock reference = .ok d') : Move allowed d d' := by
  obtain ⟨index, unit, block, hclosed, hunit, -, hfound, hfresh, rfl⟩ := openBlock_eq_ok.mp h
  exact .openBlock d index unit block hclosed hunit hfound hfresh

/-- The index of a block is that of a block of its reference. -/
theorem reference_of_blockIndex? {d : Draft} {reference : Reference} {index : Nat} {block : Block}
    (h : d.blockIndex? reference = some index) (found : d.blocks[index]? = some block) :
    block.reference = reference := by
  obtain ⟨hlt, hfinds, -⟩ := List.findIdx?_eq_some_iff_getElem.mp h
  rw [List.getElem?_eq_getElem hlt] at found
  rw [← Option.some.inj found]
  exact of_decide_eq_true hfinds

theorem closeBlock_move {d d' : Draft} (h : d.closeBlock = .ok d') : Move allowed d d' := by
  unfold closeBlock at h
  simp only [bind_eq_ok, active_eq_ok, pure_eq_ok] at h
  obtain ⟨⟨index, block, body⟩, hactive, padded, hpadded, rfl⟩ := h
  exact .closeBlock d index padded block body hactive hpadded

/-! ### Content -/

theorem setBody_active {d : Draft} {index : Nat} {block : Block} {body : Body} (body' : Body)
    (h : d.active? = some (index, block, body)) :
    (d.setBody index body').active? = some (index, { block with body := some body' }, body') := by
  rw [active?_eq_some] at h ⊢
  refine ⟨h.1, ?_, rfl⟩
  show (d.blocks.modify index _)[index]? = _
  rw [List.getElem?_modify_eq, h.2.1]
  rfl

/-- The last of two changes of a body stays. -/
theorem setBody_setBody (d : Draft) (index : Nat) (first second : Body) :
    (d.setBody index first).setBody index second = d.setBody index second := by
  unfold setBody
  simp only [List.modify_modify_eq]
  rfl

/-- What a write of bytes needs and does. -/
theorem append_eq_ok {d d' : Draft} {b : Bytes} :
    d.append b = .ok d' ↔ ∃ index block body, d.active? = some (index, block, body) ∧
      (∀ limit ∈ block.limit, body.size + b.length ≤ limit) ∧ d' = d.grown index body b := by
  unfold append
  simp only [bind_eq_ok, active_eq_ok, Prod.exists]
  refine exists_congr fun index => exists_congr fun block => exists_congr fun body =>
    and_congr_right fun _ => ?_
  cases hlimit : block.limit with
  | none =>
    simp only [pure_eq_ok, Option.not_mem_none, false_implies, implies_true, true_and]
    exact ⟨Eq.symm, Eq.symm⟩
  | some limit =>
    simp only [refuse_if_eq_ok, pure_eq_ok, Option.mem_def, Option.some.injEq, forall_eq', Nat.not_lt]
    exact and_congr_right fun _ => ⟨Eq.symm, Eq.symm⟩

theorem append_move {d d' : Draft} {b : Bytes} (h : d.append b = .ok d') : Move allowed d d' := by
  obtain ⟨index, block, body, hactive, hfits, rfl⟩ := append_eq_ok.mp h
  exact .append d index block body b hactive hfits

theorem write_eq_ok {d d' : Draft} {s : Scalar} :
    d.write s = .ok d' ↔ (∃ index block body, d.active? = some (index, block, body) ∧
      body.size % s.format.width = 0) ∧ d.append (s.encode d.endian) = .ok d' := by
  unfold write
  simp only [bind_eq_ok, active_eq_ok, Prod.exists, refuse_if_eq_ok, not_not, ne_eq]
  constructor
  · rintro ⟨index, block, body, hactive, haligned, happend⟩
    exact ⟨⟨index, block, body, hactive, haligned⟩, happend⟩
  · rintro ⟨⟨index, block, body, hactive, haligned⟩, happend⟩
    exact ⟨index, block, body, hactive, haligned, happend⟩

theorem write_move {d d' : Draft} {s : Scalar} (h : d.write s = .ok d') : Move allowed d d' :=
  append_move (write_eq_ok.mp h).2

/-- Whether bytes have been appended to the open block, and nothing else has been done. -/
abbrev Appends : Draft → Draft → Prop := ReflTransGen fun d d' => ∃ b, d.append b = .ok d'

theorem Appends.moves {d d' : Draft} (h : Appends d d') : Moves allowed d d' := by
  induction h with
  | refl => exact .refl
  | tail _ happend ih =>
    obtain ⟨b, happend⟩ := happend
    exact ih.tail (append_move happend)

theorem align_appends {d d' : Draft} {alignment : Nat} (h : d.align alignment = .ok d') :
    Appends d d' := by
  unfold align at h
  simp only [bind_eq_ok] at h
  obtain ⟨position, -, padded, -, h⟩ := h
  split at h
  · exact .single ⟨_, h⟩
  · rw [pure_eq_ok] at h
    exact h ▸ .refl

theorem write_appends {d d' : Draft} {s : Scalar} (h : d.write s = .ok d') : Appends d d' :=
  .single ⟨_, (write_eq_ok.mp h).2⟩

theorem writeAligned_appends {d d' : Draft} {s : Scalar} (h : d.writeAligned s = .ok d') :
    Appends d d' := by
  unfold writeAligned at h
  simp only [bind_eq_ok] at h
  obtain ⟨d₁, halign, h⟩ := h
  exact (align_appends halign).trans (write_appends h)

theorem writeNull_appends {d d' : Draft} (h : d.writeNull = .ok d') : Appends d d' :=
  writeAligned_appends (s := .u64 0) h

theorem writeLocation_appends {d d' : Draft} {container entry : UInt32}
    (h : d.writeLocation container entry = .ok d') : Appends d d' := by
  unfold writeLocation at h
  simp only [bind_eq_ok] at h
  obtain ⟨d₁, hcontainer, h⟩ := h
  exact (writeAligned_appends hcontainer).trans (write_appends h)

/-- Write steps only append bytes. -/
theorem perform_appends {d d' : Draft} {step : WriteStep} (h : d.perform step = .ok d') :
    Appends d d' := by
  cases step with
  | scalar value => exact write_appends h
  | aligned value => exact writeAligned_appends h
  | bytes value => exact .single ⟨_, h⟩
  | zeros count => exact .single ⟨_, h⟩
  | align alignment => exact align_appends h
  | nullReference => exact writeNull_appends h
  | location container entry => exact writeLocation_appends h

theorem performAll_appends {d d' : Draft} {steps : List WriteStep} (h : d.performAll steps = .ok d') :
    Appends d d' :=
  foldlM_keeps (P := Appends d) (fun _ _ _ hkept hstep => hkept.trans (perform_appends hstep)) .refl h

/-- Moves never take references back. -/
theorem Move.supply_le {d d' : Draft} (h : Move allowed d d') : d.supply.next ≤ d'.supply.next := by
  cases h with
  | takeReference => exact Nat.le_succ _
  | newBlock => exact Nat.le_succ _
  | _ => exact Nat.le_refl _

theorem Moves.supply_le {d d' : Draft} (h : Moves allowed d d') :
    d.supply.next ≤ d'.supply.next := by
  induction h with
  | refl => exact Nat.le_refl _
  | tail _ hmove ih => exact Nat.le_trans ih hmove.supply_le

/-- What writing a reference needs and does: behind the padding that it needs a site is noted and its
slot written. -/
theorem writeReferenceAs_eq_ok {d d' : Draft} {reference : Reference} {encoding : PointerEncoding} :
    d.writeReferenceAs reference encoding = .ok d' ↔ ∃ d₁ index block body,
      d.align Pointer.slotSize = .ok d₁ ∧ d₁.active? = some (index, block, body) ∧
      (∀ limit ∈ block.limit, body.size + Pointer.slotSize ≤ limit) ∧
      body.size % Pointer.slotSize = 0 ∧
      d' = d₁.grown index { body with sites := body.sites ++ [⟨body.size, reference, encoding⟩] }
        (d₁.placeholder reference) := by
  unfold writeReferenceAs
  simp only [bind_eq_ok, active_eq_ok, Prod.exists, write_eq_ok, append_eq_ok]
  have hgrown : ∀ (d₁ : Draft) (index : Nat) (body : Body),
      (d₁.setBody index body).grown index body (d₁.placeholder reference)
        = d₁.grown index body (d₁.placeholder reference) := by
    intro d₁ index body
    rw [grown, setBody_setBody]
    rfl
  constructor
  · rintro ⟨d₁, halign, index, block, body, hactive, ⟨i, bl, bo, hactive', haligned⟩, i', bl', bo',
      hactive'', hfits, rfl⟩
    rw [setBody_active _ hactive] at hactive' hactive''
    cases hactive'
    cases hactive''
    refine ⟨d₁, index, block, body, halign, hactive, fun limit hlimit => ?_, haligned, hgrown d₁ index _⟩
    have hle := hfits limit hlimit
    rwa [Scalar.length_encode] at hle
  · rintro ⟨d₁, index, block, body, halign, hactive, hfits, haligned, rfl⟩
    have hset := setBody_active { body with sites := body.sites ++ [⟨body.size, reference, encoding⟩] } hactive
    refine ⟨d₁, halign, index, block, body, hactive, ⟨_, _, _, hset, haligned⟩, _, _, _, hset,
      fun limit hlimit => ?_, (hgrown d₁ index _).symm⟩
    rw [Scalar.length_encode]
    exact hfits limit hlimit

theorem writeReferenceAs_moves {d d' : Draft} {reference : Reference} {encoding : PointerEncoding}
    (h : d.writeReferenceAs reference encoding = .ok d') (known : reference.id < d.supply.next)
    (mode : allowed encoding) : Moves allowed d d' := by
  obtain ⟨d₁, index, block, body, halign, hactive, hroom, haligned, rfl⟩ := writeReferenceAs_eq_ok.mp h
  have hmoves : Moves allowed d d₁ := (align_appends halign).moves
  have hknown := Nat.lt_of_lt_of_le known hmoves.supply_le
  exact hmoves.tail (.site d₁ index block body reference encoding hactive hroom haligned hknown mode)

theorem writeText_moves {d d' : Draft} {reference : Reference} {byteCount charCount : UInt32}
    (h : d.writeText reference byteCount charCount = .ok d')
    (known : reference.id < d.supply.next) (mode : allowed d.encoding) : Moves allowed d d' := by
  unfold writeText at h
  simp only [bind_eq_ok] at h
  obtain ⟨d₁, hreference, d₂, hbytes, h⟩ := h
  have hmoves := writeReferenceAs_moves hreference known mode
  exact (hmoves.tail (write_move hbytes)).tail (write_move h)

theorem mark_move {d d' : Draft} {reference : Reference} (h : d.mark reference = .ok d')
    (known : reference.id < d.supply.next) : Move allowed d d' := by
  unfold mark at h
  simp only [bind_eq_ok, active_eq_ok, requireUnit_eq_ok, Prod.exists, refuse_if_eq_ok,
    pure_eq_ok, Bool.or_eq_true, not_or, Bool.not_eq_true, Option.isSome_eq_false_iff,
    Option.isNone_iff_eq_none] at h
  obtain ⟨index, block, body, hactive, unit, hunit, ⟨hunnamed, hunmarked⟩, rfl⟩ := h
  exact .mark d index unit block body reference hactive hunit hunnamed hunmarked known

/-! ### Operations -/

/-- Every operation is made of moves. -/
theorem apply_moves {d d' : Draft} {op : Operation} (known : op.KnownIn d)
    (modes : op.EncodesIn allowed d) (h : d.apply op = .ok d') : Moves allowed d d' := by
  cases op with
  | takeReference => exact Except.ok.inj h ▸ .single (.takeReference d)
  | registerUnit signature => exact Except.ok.inj h ▸ unitIndex_moves d signature
  | openUnit index => exact .single (openUnit_move h)
  | closeUnit => exact .single (closeUnit_move h)
  | setRoot reference => exact .single (setRoot_move h (known reference rfl))
  | setEncoding encoding => exact Except.ok.inj h ▸ .single (.setEncoding d encoding modes)
  | newBlock alignment limit =>
    obtain ⟨result, hresult, rfl⟩ := map_eq_ok.mp h
    exact .single (newBlock_move hresult alignment.toNat_lt)
  | openBlock reference => exact .single (openBlock_move h)
  | closeBlock => exact .single (closeBlock_move h)
  | write step => exact (perform_appends h).moves
  | writeReference reference => exact writeReferenceAs_moves h (known reference rfl) modes
  | writeReferenceAs reference encoding => exact writeReferenceAs_moves h (known reference rfl) modes
  | writeText reference byteCount charCount => exact writeText_moves h (known reference rfl) modes
  | mark reference => exact .single (mark_move h (known reference rfl))

/-- A run is made of moves. -/
theorem Run.moves {d d' : Draft} {ops : List Operation} (h : Run d ops d') :
    Moves (fun _ => True) d d' := by
  induction h with
  | done d => exact .refl
  | @step d _ _ op _ known applied _ ih => exact (apply_moves known (op.encodesIn_any d) applied).trans ih

/-- Moves that allow one encoding only keep it that of the draft. -/
theorem Moves.encoding_eq {d d' : Draft} {encoding : PointerEncoding}
    (h : Moves (· = encoding) d d') (hd : d.encoding = encoding) : d'.encoding = encoding := by
  induction h with
  | refl => exact hd
  | tail _ hmove ih =>
    cases hmove with
    | setEncoding _ mode => exact mode
    | _ => exact ih

/-- A run that leaves encodings to the draft only writes that of the draft. -/
theorem Run.moves_of_plain {d d' : Draft} {ops : List Operation} (h : Run d ops d')
    (plain : ∀ op ∈ ops, op.Plain) : Moves (· = d.encoding) d d' := by
  induction h with
  | done d => exact .refl
  | @step d d₁ _ op ops known applied _ ih =>
    have hfirst := apply_moves known ((plain op List.mem_cons_self).encodesIn d) applied
    have hrest := ih fun op hop => plain op (List.mem_cons_of_mem _ hop)
    rw [hfirst.encoding_eq rfl] at hrest
    exact hfirst.trans hrest

end ObjectPack.Draft
