import ObjectPack.Proofs.Draft.Write
import ObjectPack.TextPool

/-!
# Registered blocks

A block is registered with a reference, an alignment and a limit, and these stay what they are.  Of all
the operations that pack data only `newBlock` registers blocks, so what has been registered is known
from its calls alone (`newBlock_registered`); the other lemmas say that the rest registers nothing.

A block is filled while it is open.  As it is opened only once, it has its final content when it is
closed (`Moves.block_stays`).
-/

namespace ObjectPack

open Outcome

/-- A block as it was registered. -/
def Block.registered (b : Block) : Block := { b with body := none }

namespace Draft

variable {d d' : Draft} {reference : Reference} {allowed : PointerEncoding → Prop}

/-- The blocks as they were registered. -/
def registered (d : Draft) : List Block := d.blocks.map Block.registered

/-- A block is known by its reference as it was registered. -/
theorem Valid.eq_of_registered (valid : d.Valid) {a b : Block} (ha : a ∈ d.registered)
    (hb : b ∈ d.registered) (h : a.reference = b.reference) : a = b := by
  obtain ⟨a', ha', rfl⟩ := List.mem_map.mp ha
  obtain ⟨b', hb', rfl⟩ := List.mem_map.mp hb
  rw [valid.eq_of_reference ha' hb' h]

/-! ### What registers nothing -/

@[simp] theorem setBody_registered (d : Draft) (index : Nat) (body : Body) :
    (d.setBody index body).registered = d.registered := by
  apply List.ext_getElem?
  intro i
  show ((d.blocks.modify index _).map _)[i]? = (d.blocks.map _)[i]?
  rw [List.getElem?_map, List.getElem?_modify, List.getElem?_map]
  by_cases hi : index = i
  · simp only [if_pos hi, Option.map_eq_map, Option.map_map]
    rfl
  · simp only [if_neg hi, id_map']

theorem Appends.registered (h : Appends d d') : d'.registered = d.registered := by
  induction h with
  | refl => rfl
  | tail _ happend ih =>
    obtain ⟨b, happend⟩ := happend
    obtain ⟨index, block, body, -, -, rfl⟩ := append_eq_ok.mp happend
    exact (setBody_registered _ index _).trans ih

theorem writeReference_registered (h : d.writeReference reference = .ok d') :
    d'.registered = d.registered := by
  obtain ⟨d₁, index, block, body, halign, -, -, -, rfl⟩ := writeReferenceAs_eq_ok.mp h
  exact (setBody_registered d₁ index _).trans (align_appends halign).registered

theorem writeText_registered {byteCount charCount : UInt32}
    (h : d.writeText reference byteCount charCount = .ok d') : d'.registered = d.registered := by
  unfold writeText at h
  simp only [bind_eq_ok] at h
  obtain ⟨d₁, hslot, d₂, hbytes, hchars⟩ := h
  rw [(write_appends hchars).registered, (write_appends hbytes).registered,
    writeReference_registered hslot]

theorem mark_registered (h : d.mark reference = .ok d') : d'.registered = d.registered := by
  unfold mark at h
  simp only [bind_eq_ok, Prod.exists, refuse_if_eq_ok, pure_eq_ok] at h
  obtain ⟨index, block, body, -, unit, -, -, rfl⟩ := h
  exact setBody_registered d index _

theorem openBlock_registered (h : d.openBlock reference = .ok d') :
    d'.registered = d.registered := by
  obtain ⟨index, unit, block, -, -, -, hfound, -, rfl⟩ := openBlock_eq_ok.mp h
  apply List.ext_getElem?
  intro i
  show ((d.blocks.set index _).map _)[i]? = (d.blocks.map _)[i]?
  rw [List.getElem?_map, List.getElem?_set, List.getElem?_map]
  split
  · rename_i heq
    rw [← heq, if_pos (List.getElem?_eq_some_iff.mp hfound).1, hfound]
    rfl
  · rfl

theorem closeBlock_blocks (h : d.closeBlock = .ok d') :
    d'.blocks = d.blocks ∧ d'.currentBlock = none := by
  unfold closeBlock at h
  simp only [bind_eq_ok, pure_eq_ok, Prod.exists] at h
  obtain ⟨_, _, _, -, padded, -, rfl⟩ := h
  exact ⟨rfl, rfl⟩

theorem closeBlock_registered (h : d.closeBlock = .ok d') : d'.registered = d.registered :=
  congrArg (List.map Block.registered) (closeBlock_blocks h).1

theorem unitIndex_registered (d : Draft) (signature : Digest) :
    (d.unitIndex signature).2.registered = d.registered := by
  unfold unitIndex
  split <;> rfl

/-! ### What registers a block -/

theorem newBlock_registered {alignment : Nat} {limit : Option Nat} {result : Reference × Draft}
    (h : d.newBlock alignment limit = .ok result) :
    result.2.registered = d.registered ++ [⟨result.1, alignment, limit, none⟩] := by
  unfold newBlock at h
  simp only [refuse_if_eq_ok, pure_eq_ok] at h
  obtain ⟨-, rfl⟩ := h
  exact List.map_append

/-- A reference that has been taken and names no block names none later on. -/
theorem Move.unnamed (h : Move allowed d d') (known : reference.id < d.supply.next)
    (unnamed : ∀ b ∈ d.registered, b.reference ≠ reference) : ∀ b ∈ d'.registered, b.reference ≠ reference := by
  cases h with
  | takeReference | registerUnit | openUnit | closeUnit | setRoot | setEncoding | closeBlock => exact unnamed
  | newBlock alignment limit power word =>
    intro b hb
    have hregistered : b ∈ d.registered ++ [⟨⟨d.supply.next⟩, alignment, limit, none⟩] := by
      rwa [registered, List.map_append] at hb
    rcases List.mem_append.mp hregistered with hold | hnew
    · exact unnamed b hold
    · obtain rfl := List.mem_singleton.mp hnew
      rintro rfl
      exact Nat.lt_irrefl _ known
  | openBlock index unit block closed opened found fresh =>
    intro b hb
    obtain ⟨b', hb', rfl⟩ := List.mem_map.mp hb
    rcases mem_set_of_ne hb' with rfl | ⟨j, -, hj⟩
    · exact unnamed block.registered (List.mem_map_of_mem (List.mem_of_getElem? found))
    · exact unnamed b'.registered (List.mem_map_of_mem (List.mem_of_getElem? hj))
  | append index _ _ _ | site index _ _ _ | mark index _ _ _ =>
    have hregistered := setBody_registered d index
    exact fun b hb => unnamed b (hregistered _ ▸ hb)

theorem Moves.unnamed (h : Moves allowed d d') (known : reference.id < d.supply.next)
    (unnamed : ∀ b ∈ d.registered, b.reference ≠ reference) : ∀ b ∈ d'.registered, b.reference ≠ reference := by
  induction h with
  | refl => exact unnamed
  | tail hmoves hmove ih => exact hmove.unnamed (Nat.lt_of_lt_of_le known (Moves.supply_le hmoves)) ih

end Draft

/-- The block of texts is one that has been registered before. -/
theorem TextPool.fillBlock_registered {pool : TextPool} {d d' : Draft} {block : Reference}
    {indices : List Nat} (h : pool.fillBlock d block indices = .ok d') :
    d'.registered = d.registered := by
  unfold TextPool.fillBlock at h
  simp only [bind_eq_ok] at h
  obtain ⟨order, -, d₁, hopen, d₂, htexts, hclose⟩ := h
  rw [Draft.closeBlock_registered hclose, ← Draft.openBlock_registered hopen]
  refine foldlM_keeps (P := fun c => c.registered = d₁.registered) (fun c index c' hkept hentry => ?_)
    rfl htexts
  unfold TextPool.writeEntry at hentry
  simp only [bind_eq_ok] at hentry
  obtain ⟨t, -, c₁, hmark, c₂, hbytes, hzero⟩ := hentry
  have hwritten : Draft.Appends c₁ c' := .tail (.single ⟨_, hbytes⟩) ⟨_, (Draft.write_eq_ok.mp hzero).2⟩
  rw [hwritten.registered, Draft.mark_registered hmark, hkept]

/-! ### Closed blocks -/

namespace Draft

variable {d d' : Draft} {index : Nat} {block : Block} {allowed : PointerEncoding → Prop}

theorem setBody_getElem?_ne {other : Nat} (hne : other ≠ index) (body : Body) :
    (d.setBody other body).blocks[index]? = d.blocks[index]? := by
  show (d.blocks.modify other _)[index]? = _
  rw [List.getElem?_modify]
  simp only [if_neg hne, id_map']

/-- A block that has been filled and is not open stays as it is. -/
theorem Move.block_stays (h : Move allowed d d') (found : d.blocks[index]? = some block)
    (filled : block.body.isSome) (closed : d.currentBlock ≠ some index) :
    d'.blocks[index]? = some block ∧ d'.currentBlock ≠ some index := by
  have hother : ∀ i b c, d.active? = some (i, b, c) → i ≠ index := fun i b c hactive heq =>
    closed (heq ▸ (active?_eq_some.mp hactive).1)
  cases h with
  | takeReference => exact ⟨found, closed⟩
  | registerUnit => exact ⟨found, closed⟩
  | openUnit => exact ⟨found, closed⟩
  | closeUnit => exact ⟨found, closed⟩
  | setRoot => exact ⟨found, closed⟩
  | setEncoding => exact ⟨found, closed⟩
  | newBlock alignment limit power word =>
    exact ⟨(List.getElem?_append_left (List.getElem?_eq_some_iff.mp found).1).trans found, closed⟩
  | openBlock i unit opening _ opened found' fresh =>
    -- The block that is opened had no body yet.
    have hne : i ≠ index := by
      rintro rfl
      rw [found] at found'
      cases found'
      rw [fresh] at filled
      cases filled
    refine ⟨?_, fun heq => hne (Option.some.inj heq)⟩
    show (d.blocks.set i _)[index]? = some block
    rw [List.getElem?_set_ne hne, found]
  | closeBlock => exact ⟨found, fun h => by cases h⟩
  | append i opened written b active fits =>
    exact ⟨(setBody_getElem?_ne (hother _ _ _ active) _).trans found, closed⟩
  | site i opened written reference encoding active fits aligned known mode =>
    exact ⟨(setBody_getElem?_ne (hother _ _ _ active) _).trans found, closed⟩
  | mark i unit opened written reference active openedUnit unnamed unmarked known =>
    exact ⟨(setBody_getElem?_ne (hother _ _ _ active) _).trans found, closed⟩

theorem Moves.block_stays (h : Moves allowed d d') (found : d.blocks[index]? = some block)
    (filled : block.body.isSome) (closed : d.currentBlock ≠ some index) :
    d'.blocks[index]? = some block ∧ d'.currentBlock ≠ some index := by
  induction h with
  | refl => exact ⟨found, closed⟩
  | tail _ hmove ih => exact hmove.block_stays ih.1 filled ih.2

end Draft

end ObjectPack
