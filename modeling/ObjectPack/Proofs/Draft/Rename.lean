import ObjectPack.Proofs.Draft.Outline
import ObjectPack.Proofs.Follow
import ObjectPack.Proofs.Section.Rename

/-!
# Drafts with other names

A draft whose references have been renamed is the same draft (`Draft.Renamed`): what has been written into a
block differs in the slots of its sites only, which hold the numbers of references (`Body.Agrees`).  Each
operation that succeeds on the one draft succeeds on the other, with the reference that it names renamed too,
and leaves drafts that are related in the same way (`Draft.Renamed.apply`).  References that are still to be
taken are numbered higher by a constant; how those that have been taken are renamed is left open.

Whatever is written comes at the end of the buffer, and that is where the open block ends; so the blocks
before stay as they are, and the open one grows by what is written (`Draft.Renamed.grow`).
-/

namespace ObjectPack

open Outcome

/-- A body with renamed references. -/
def Body.rename (f : Reference → Reference) (b : Body) : Body :=
  { b with sites := b.sites.map (·.rename f), marks := b.marks.map (·.rename f) }

/-- A block with renamed references. -/
def Block.rename (f : Reference → Reference) (b : Block) : Block :=
  { b with reference := f b.reference, body := b.body.map (·.rename f) }

/-- A data unit with a renamed root. -/
def DraftUnit.rename (f : Reference → Reference) (u : DraftUnit) : DraftUnit :=
  { u with root := u.root.map f }

/-! ### Contents -/

/-- Whether a position of the content lies in no slot of a site. -/
def Body.Outside (body : Body) (i : Nat) : Prop :=
  ∀ site ∈ body.sites, i < site.offset ∨ site.offset + Pointer.slotSize ≤ i

/-- Whether a body lies in a buffer and has the same content in another one, its slots apart. -/
structure Body.Agrees (body : Body) (b b' : Bytes) : Prop where
  inside : body.start + body.size ≤ b.length
  content : Bytes.AgreeWhere body.Outside ((b.drop body.start).take body.size)
    ((b'.drop body.start).take body.size)

/-- What comes behind a body makes no difference. -/
theorem Body.Agrees.append {body : Body} {b b' : Bytes} (h : body.Agrees b b')
    (length : b'.length = b.length) (c c' : Bytes) : body.Agrees (b ++ c) (b' ++ c') := by
  have hpart : ∀ b c : Bytes, body.start + body.size ≤ b.length →
      ((b ++ c).drop body.start).take body.size = (b.drop body.start).take body.size := by
    intro b c hinside
    rw [List.drop_append_of_le_length (by omega), List.take_append_of_le_length]
    rw [List.length_drop]
    omega
  have hinside := h.inside
  refine ⟨by rw [List.length_append]; omega, ?_⟩
  rw [hpart b c hinside, hpart b' c' (length ▸ hinside)]
  exact h.content

/-- A body at the end of the buffer grows by what is written there. -/
theorem Body.Agrees.grow {body body' : Body} {b b' c c' : Bytes} (h : body.Agrees b b')
    (cursor : body.start + body.size = b.length) (length : b'.length = b.length)
    (start : body'.start = body.start) (size : body'.size = body.size + c.length)
    (outside : ∀ i, body'.Outside i → body.Outside i)
    (agree : Bytes.AgreeWhere (fun i => body'.Outside (body.size + i)) c c') :
    body'.Agrees (b ++ c) (b' ++ c') := by
  have hpart : ∀ b c : Bytes, body.start + body.size = b.length →
      ((b ++ c).drop body.start).take (body.size + c.length) = (b.drop body.start).take body.size ++ c := by
    intro b c hcursor
    have hlength : (b.drop body.start).length = body.size := by
      rw [List.length_drop]
      omega
    rw [List.drop_append_of_le_length (by omega), List.take_of_length_le, List.take_of_length_le]
    · exact Nat.le_of_eq hlength
    · rw [List.length_append, hlength]
  have hlength : ((b.drop body.start).take body.size).length = body.size := by
    rw [List.length_take, List.length_drop]
    omega
  refine ⟨by rw [start, size, List.length_append]; omega, ?_⟩
  rw [start, size, hpart b c cursor, ← agree.length, hpart b' c' (cursor.trans length.symm)]
  refine (h.content.mono outside).append ?_
  rw [hlength]
  exact agree

/-- Changing one element and changing all commute where the changes do. -/
theorem map_modify_comm {α β : Type} {g : α → β} {h : α → α} (h' : β → β)
    (comm : ∀ a, g (h a) = h' (g a)) (l : List α) (i : Nat) : (l.modify i h).map g = (l.map g).modify i h' := by
  refine List.ext_getElem? fun j => ?_
  rw [List.getElem?_map, List.getElem?_modify, List.getElem?_modify, List.getElem?_map]
  cases l[j]? with
  | none => rfl
  | some a =>
    split
    · exact congrArg some (comm a)
    · rfl

namespace Draft

variable {f : Reference → Reference} {t : Nat} {d d₁ d' : Draft} {index : Nat} {block : Block} {body : Body}

/-! ### The relation -/

/-- The draft with all references renamed, another buffer and a supply that began `t` references later. -/
def renamed (f : Reference → Reference) (t : Nat) (d : Draft) (b : Bytes) : Draft :=
  { d with
    buffer := b
    blocks := d.blocks.map (·.rename f)
    units := d.units.map (·.rename f)
    supply := ⟨d.supply.next + t⟩ }

/-- Whether a draft is another one with renamed references; those that are still to be taken are numbered `t`
higher. -/
structure Renamed (f : Reference → Reference) (t : Nat) (d d' : Draft) : Prop where
  eq : d' = d.renamed f t d'.buffer
  length : d'.buffer.length = d.buffer.length
  bodies : ∀ block ∈ d.blocks, ∀ body ∈ block.body, body.Agrees d.buffer d'.buffer
  injective : Function.Injective f
  fresh : ∀ n, d.supply.next ≤ n → f ⟨n⟩ = ⟨n + t⟩
  cursor : ∀ index block body, d.active? = some (index, block, body) →
    body.start + body.size = d.buffer.length

/-- What the open block is called makes no difference. -/
theorem active?_renamed (f : Reference → Reference) (t : Nat) (d : Draft) (b : Bytes) :
    (d.renamed f t b).active?
      = d.active?.map fun a => (a.1, a.2.1.rename f, a.2.2.rename f) := by
  unfold active?
  show (d.currentBlock.bind fun index => ((d.blocks.map _)[index]?).bind _) = _
  cases d.currentBlock with
  | none => rfl
  | some index =>
    simp only [Option.bind_some, List.getElem?_map, Option.bind_eq_bind]
    cases d.blocks[index]? with
    | none => rfl
    | some block =>
      obtain ⟨reference, alignment, limit, body⟩ := block
      cases body <;> rfl

theorem Renamed.active? (h : Renamed f t d d') :
    d'.active? = d.active?.map fun a => (a.1, a.2.1.rename f, a.2.2.rename f) := by
  rw [h.eq]
  exact active?_renamed f t d _

theorem Renamed.active (h : Renamed f t d d') (active : d.active? = some (index, block, body)) :
    d'.active? = some (index, block.rename f, body.rename f) := by
  rw [h.active?, active]
  rfl

theorem Renamed.inactive (h : Renamed f t d d') : d'.active? = none ↔ d.active? = none := by
  rw [h.active?, Option.map_eq_none_iff]

theorem Renamed.endian (h : Renamed f t d d') : d'.endian = d.endian := by
  rw [h.eq]
  rfl

theorem Renamed.encoding (h : Renamed f t d d') : d'.encoding = d.encoding := by
  rw [h.eq]
  rfl

theorem Renamed.currentUnit (h : Renamed f t d d') : d'.currentUnit = d.currentUnit := by
  rw [h.eq]
  rfl

theorem Renamed.supply (h : Renamed f t d d') : d'.supply = ⟨d.supply.next + t⟩ := by
  rw [h.eq]
  rfl

/-- The block of a renamed reference stands where the block of the reference does. -/
theorem Renamed.blockIndex? (h : Renamed f t d d') (r : Reference) :
    d'.blockIndex? (f r) = d.blockIndex? r := by
  rw [h.eq]
  show (d.blocks.map (Block.rename _)).findIdx? _ = d.blocks.findIdx? _
  rw [List.findIdx?_map]
  refine congrArg (d.blocks.findIdx? ·) (funext fun block => ?_)
  exact decide_eq_decide.mpr (h.injective).eq_iff

/-- What changes nothing of the blocks and of the buffer is renamed with them. -/
theorem Renamed.change (h : Renamed f t d d') (d₁ : Draft) (blocks : d₁.blocks = d.blocks)
    (buffer : d₁.buffer = d.buffer) (current : d₁.currentBlock = d.currentBlock)
    (supply : d.supply.next ≤ d₁.supply.next) : Renamed f t d₁ (d₁.renamed f t d'.buffer) where
  eq := rfl
  length := buffer ▸ h.length
  bodies := by
    rw [blocks, buffer]
    exact h.bodies
  injective := h.injective
  fresh n hn := h.fresh n (Nat.le_trans supply hn)
  cursor := by
    intro index block body hactive
    rw [active?_eq_some, blocks, current, ← active?_eq_some] at hactive
    rw [buffer]
    exact h.cursor index block body hactive

/-! ### Data units and blocks -/

theorem takeReference_renamed (fresh : f ⟨d.supply.next⟩ = ⟨d.supply.next + t⟩) (b : Bytes) :
    (d.renamed f t b).takeReference = (f d.takeReference.1, d.takeReference.2.renamed f t b) := by
  refine Prod.ext fresh.symm ?_
  show { d.renamed f t b with supply := ⟨d.supply.next + t + 1⟩ } = _
  rw [Nat.add_right_comm]
  rfl

/-- Both supplies may be drawn from by others alike. -/
theorem Renamed.withSupply (h : Renamed f t d d') {s : Supply} (le : d.supply.next ≤ s.next) :
    Renamed f t { d with supply := s } { d' with supply := ⟨s.next + t⟩ } := by
  obtain ⟨b, rfl⟩ : ∃ b, d' = d.renamed f t b := ⟨_, h.eq⟩
  exact h.change { d with supply := s } rfl rfl rfl le

theorem Renamed.takeReference (h : Renamed f t d d') :
    d'.takeReference.1 = f d.takeReference.1 ∧
      Renamed f t d.takeReference.2 d'.takeReference.2 := by
  obtain ⟨b, rfl⟩ : ∃ b, d' = d.renamed f t b := ⟨_, h.eq⟩
  rw [takeReference_renamed (h.fresh _ (Nat.le_refl _))]
  exact ⟨rfl, h.change d.takeReference.2 rfl rfl rfl (Nat.le_succ _)⟩

/-- Data units are told apart by their signatures. -/
theorem Renamed.unitIndex (h : Renamed f t d d') (signature : Digest) :
    (d'.unitIndex signature).1 = (d.unitIndex signature).1 ∧
      Renamed f t (d.unitIndex signature).2 (d'.unitIndex signature).2 := by
  obtain ⟨b, rfl⟩ : ∃ b, d' = d.renamed f t b := ⟨_, h.eq⟩
  have hfind : (d.renamed f t b).units.findIdx? (·.signature = signature)
      = d.units.findIdx? (·.signature = signature) := List.findIdx?_map ..
  unfold Draft.unitIndex
  rw [hfind]
  split
  · exact ⟨rfl, h⟩
  · refine ⟨List.length_map .., ?_⟩
    have hchange := h.change { d with units := d.units ++ [⟨signature, none⟩] } rfl rfl rfl (Nat.le_refl _)
    convert hchange using 1
    unfold renamed
    rw [List.map_append]
    rfl

theorem Renamed.openUnit (h : Renamed f t d d') (index : Nat) :
    Follows (Renamed f t) (d.openUnit index) (d'.openUnit index) := by
  obtain ⟨b, rfl⟩ : ∃ b, d' = d.renamed f t b := ⟨_, h.eq⟩
  intro d₁ h₁
  unfold Draft.openUnit at h₁ ⊢
  rw [h.currentUnit]
  cases hunit : d.currentUnit with
  | some unit => simp only [hunit, bind_eq_ok, throw_ne_ok, false_and, exists_false] at h₁
  | none =>
    simp only [hunit, refuse_if_eq_ok, pure_eq_ok] at h₁ ⊢
    obtain ⟨hknown, rfl⟩ := h₁
    refine ⟨_, ⟨?_, rfl⟩, h.change _ rfl rfl rfl (Nat.le_refl _)⟩
    exact fun hle => hknown (List.length_map .. ▸ hle)

theorem Renamed.closeUnit (h : Renamed f t d d') : Follows (Renamed f t) d.closeUnit d'.closeUnit := by
  obtain ⟨b, rfl⟩ : ∃ b, d' = d.renamed f t b := ⟨_, h.eq⟩
  intro d₁ h₁
  unfold Draft.closeUnit at h₁ ⊢
  simp only [bind_eq_ok, requireNoBlock_eq_ok, requireUnit_eq_ok, pure_eq_ok] at h₁ ⊢
  obtain ⟨u, hclosed, unit, hunit, rfl⟩ := h₁
  exact ⟨_, ⟨u, h.inactive.mpr hclosed, unit, hunit, rfl⟩, h.change _ rfl rfl rfl (Nat.le_refl _)⟩

theorem Renamed.setRoot (h : Renamed f t d d') (r : Reference) :
    Follows (Renamed f t) (d.setRoot r) (d'.setRoot (f r)) := by
  obtain ⟨b, rfl⟩ : ∃ b, d' = d.renamed f t b := ⟨_, h.eq⟩
  intro d₁ h₁
  unfold Draft.setRoot at h₁ ⊢
  simp only [bind_eq_ok, requireUnit_eq_ok, pure_eq_ok] at h₁ ⊢
  obtain ⟨unit, hunit, rfl⟩ := h₁
  refine ⟨_, ⟨unit, hunit, rfl⟩, ?_⟩
  have hchange := h.change { d with units := d.units.modify unit ({ · with root := some r }) } rfl rfl rfl
    (Nat.le_refl _)
  convert hchange using 1
  unfold renamed
  rw [map_modify_comm (g := DraftUnit.rename f) ({ · with root := some (f r) })]
  exact fun _ => rfl

theorem Renamed.setEncoding (h : Renamed f t d d') (encoding : PointerEncoding) :
    Renamed f t { d with encoding := encoding } { d' with encoding := encoding } := by
  obtain ⟨b, rfl⟩ : ∃ b, d' = d.renamed f t b := ⟨_, h.eq⟩
  exact h.change { d with encoding := encoding } rfl rfl rfl (Nat.le_refl _)

/-- A block that has just been registered is not open. -/
theorem active?_of_registered (d : Draft) (supply : Supply) (unopened : block.body = none)
    {found : Nat × Block × Body}
    (h : ({ d with supply := supply, blocks := d.blocks ++ [block] } : Draft).active? = some found) :
    d.active? = some found := by
  obtain ⟨i, b, c⟩ := found
  obtain ⟨hi, hb, hc⟩ := active?_eq_some.mp h
  refine active?_eq_some.mpr ⟨hi, ?_, hc⟩
  rw [List.getElem?_append] at hb
  split at hb
  · exact hb
  · obtain rfl := List.mem_singleton.mp (List.mem_of_getElem? hb)
    rw [unopened] at hc
    cases hc

theorem Renamed.newBlock (h : Renamed f t d d') (alignment : Nat) (limit : Option Nat) :
    Follows (fun r r' => r'.1 = f r.1 ∧ Renamed f t r.2 r'.2) (d.newBlock alignment limit)
      (d'.newBlock alignment limit) := by
  obtain ⟨b, rfl⟩ : ∃ b, d' = d.renamed f t b := ⟨_, h.eq⟩
  unfold Draft.newBlock
  rw [takeReference_renamed (h.fresh _ (Nat.le_refl _))]
  refine .refuse Iff.rfl fun _ => .ok ⟨rfl, ?_⟩
  exact
    { eq := by
        unfold renamed
        rw [List.map_append]
        rfl
      length := h.length
      bodies := by
        intro block hblock body hbody
        rcases List.mem_append.mp hblock with hold | hnew
        · exact h.bodies block hold body hbody
        · rw [List.mem_singleton.mp hnew] at hbody
          cases hbody
      injective := h.injective
      fresh := fun n hn => h.fresh n (Nat.le_of_succ_le hn)
      cursor := fun i b c hactive => h.cursor i b c (active?_of_registered d _ rfl hactive) }

theorem Renamed.openBlock (h : Renamed f t d d') (r : Reference) :
    Follows (Renamed f t) (d.openBlock r) (d'.openBlock (f r)) := by
  intro d₁ h₁
  obtain ⟨index, unit, block, hclosed, hunit, hindex, hfound, hfresh, rfl⟩ := openBlock_eq_ok.mp h₁
  refine ⟨_, openBlock_eq_ok.mpr ⟨index, unit, block.rename f, h.inactive.mpr hclosed,
    h.currentUnit.trans hunit, (h.blockIndex? r).trans hindex, ?_, ?_, rfl⟩, ?_⟩
  · rw [h.eq]
    show (d.blocks.map _)[index]? = _
    rw [List.getElem?_map, hfound]
    rfl
  · show block.body.map _ = none
    rw [hfresh]
    rfl
  · obtain ⟨b, rfl⟩ : ∃ b, d' = d.renamed f t b := ⟨_, h.eq⟩
    exact
      { eq := by
          unfold renamed
          rw [List.map_set, ← h.length]
          rfl
        length := h.length
        bodies := by
          intro bl hbl bo hbo
          rcases mem_set_of_ne hbl with rfl | ⟨j, -, hj⟩
          · cases hbo
            exact ⟨Nat.le_refl _, by rw [List.take_zero, List.take_zero]; exact .refl _ _⟩
          · exact h.bodies bl (List.mem_of_getElem? hj) bo hbo
        injective := h.injective
        fresh := h.fresh
        cursor := by
          intro i b c hactive
          obtain ⟨hi, hb, hc⟩ := active?_eq_some.mp hactive
          cases hi
          rw [List.getElem?_set_self (List.getElem?_eq_some_iff.mp hfound).1] at hb
          cases hb
          cases hc
          rfl }

theorem Renamed.closeBlock (h : Renamed f t d d') : Follows (Renamed f t) d.closeBlock d'.closeBlock := by
  intro d₁ h₁
  unfold Draft.closeBlock at h₁ ⊢
  simp only [bind_eq_ok, active_eq_ok, pure_eq_ok] at h₁ ⊢
  obtain ⟨⟨index, block, body⟩, hactive, padded, hpadded, rfl⟩ := h₁
  refine ⟨_, ⟨_, h.active hactive, padded, hpadded, rfl⟩, ?_⟩
  obtain ⟨b, rfl⟩ : ∃ b, d' = d.renamed f t b := ⟨_, h.eq⟩
  exact
    { eq := rfl
      length := by
        show (Bytes.padTo b _).length = _
        rw [Bytes.length_padTo, Bytes.length_padTo]
        exact congrArg (max · _) h.length
      bodies := fun bl hbl bo hbo => (h.bodies bl hbl bo hbo).append h.length _ _
      injective := h.injective
      fresh := h.fresh
      cursor := fun _ _ _ hactive => by cases hactive }

/-! ### Content -/

theorem setBody_renamed (index : Nat) (body : Body) (b : Bytes) :
    (d.renamed f t b).setBody index (body.rename f) = (d.setBody index body).renamed f t b := by
  unfold setBody renamed
  rw [map_modify_comm (g := Block.rename f) ({ · with body := some (body.rename f) })]
  exact fun _ => rfl

/-- The open block may grow by bytes that agree outside its slots. -/
theorem Renamed.grow (h : Renamed f t d d') (active : d.active? = some (index, block, body)) {body' : Body}
    {b c : Bytes} (grows : body.GrowsTo body') (size : body'.size = body.size + b.length)
    (agree : Bytes.AgreeWhere (fun i => body'.Outside (body.size + i)) b c) :
    Renamed f t { d.setBody index body' with buffer := d.buffer ++ b }
      { d'.setBody index (body'.rename f) with buffer := d'.buffer ++ c } := by
  obtain ⟨buffer, rfl⟩ : ∃ b, d' = d.renamed f t b := ⟨_, h.eq⟩
  have hcursor := h.cursor _ _ _ active
  rw [setBody_renamed]
  exact
    { eq := rfl
      length := by
        rw [List.length_append, List.length_append, agree.length]
        exact congrArg (· + _) h.length
      bodies := by
        intro bl hbl bo hbo
        rw [show ({ d.setBody index body' with buffer := d.buffer ++ b } : Draft).blocks
          = (d.setBody index body').blocks from rfl, setBody_blocks active] at hbl
        obtain ⟨-, hfound, hbody⟩ := active?_eq_some.mp active
        rcases mem_set_of_ne hbl with rfl | ⟨j, -, hj⟩
        · cases hbo
          refine (h.bodies block (List.mem_of_getElem? hfound) body hbody).grow hcursor h.length grows.start
            size (fun i hi site hsite => hi site (grows.mem_sites hsite)) agree
        · exact (h.bodies bl (List.mem_of_getElem? hj) bo hbo).append h.length _ _
      injective := h.injective
      fresh := h.fresh
      cursor := by
        intro i bl bo hactive
        have hset : (d.setBody index body').active? = some (i, bl, bo) := hactive
        rw [setBody_active _ active] at hset
        cases hset
        rw [grows.start, size, List.length_append]
        omega }

theorem Renamed.append (h : Renamed f t d d') (b : Bytes) :
    Follows (Renamed f t) (d.append b) (d'.append b) := by
  intro d₁ h₁
  obtain ⟨index, block, body, hactive, hfits, rfl⟩ := append_eq_ok.mp h₁
  have hgrows : body.GrowsTo { body with size := body.size + b.length } :=
    ⟨rfl, rfl, Nat.le_add_right _ _, List.prefix_refl _, [], (List.append_nil _).symm,
      List.forall_mem_nil _⟩
  exact ⟨_, append_eq_ok.mpr ⟨index, _, _, h.active hactive, hfits, rfl⟩,
    h.grow hactive hgrows rfl (.refl _ b)⟩

theorem Renamed.position (h : Renamed f t d d') : Follows Eq d.position d'.position := by
  intro position hposition
  unfold Draft.position at hposition ⊢
  simp only [bind_eq_ok, active_eq_ok, pure_eq_ok] at hposition ⊢
  obtain ⟨⟨index, block, body⟩, hactive, rfl⟩ := hposition
  exact ⟨_, ⟨_, h.active hactive, rfl⟩, rfl⟩

theorem Renamed.align (h : Renamed f t d d') (alignment : Nat) :
    Follows (Renamed f t) (d.align alignment) (d'.align alignment) := by
  unfold Draft.align
  refine h.position.bind ?_
  rintro position _ rfl
  refine .bind_same fun padded _ => ?_
  split
  · exact h.append _
  · exact .ok h

theorem Renamed.write (h : Renamed f t d d') (s : Scalar) :
    Follows (Renamed f t) (d.write s) (d'.write s) := by
  intro d₁ h₁
  obtain ⟨⟨index, block, body, hactive, haligned⟩, happend⟩ := write_eq_ok.mp h₁
  obtain ⟨d₂, happend', hrenamed⟩ := h.append _ d₁ happend
  refine ⟨d₂, write_eq_ok.mpr ⟨⟨index, _, _, h.active hactive, haligned⟩, ?_⟩, hrenamed⟩
  rw [h.endian]
  exact happend'

theorem Renamed.writeAligned (h : Renamed f t d d') (s : Scalar) :
    Follows (Renamed f t) (d.writeAligned s) (d'.writeAligned s) :=
  (h.align _).bind fun _ _ h => h.write s

theorem Renamed.writeNull (h : Renamed f t d d') : Follows (Renamed f t) d.writeNull d'.writeNull :=
  (h.align _).bind fun _ _ h => h.write (.u64 0)

theorem Renamed.writeLocation (h : Renamed f t d d') (container entry : UInt32) :
    Follows (Renamed f t) (d.writeLocation container entry) (d'.writeLocation container entry) :=
  (h.writeAligned _).bind fun _ _ h => h.write (.u32 entry)

theorem Renamed.perform (h : Renamed f t d d') (step : WriteStep) :
    Follows (Renamed f t) (d.perform step) (d'.perform step) := by
  cases step with
  | scalar value => exact h.write value
  | aligned value => exact h.writeAligned value
  | bytes value => exact h.append value
  | zeros count => exact h.append _
  | align alignment => exact h.align alignment
  | nullReference => exact h.writeNull
  | location container entry => exact h.writeLocation container entry

theorem Renamed.performAll (h : Renamed f t d d') (steps : List WriteStep) :
    Follows (Renamed f t) (d.performAll steps) (d'.performAll steps) :=
  .foldlM (fun _ _ step h => h.perform step) steps h

/-! ### References -/

theorem Renamed.writeReferenceAs (h : Renamed f t d d') (r : Reference) (encoding : PointerEncoding) :
    Follows (Renamed f t) (d.writeReferenceAs r encoding) (d'.writeReferenceAs (f r) encoding) := by
  intro d₁ h₁
  obtain ⟨d₂, index, block, body, halign, hactive, hfits, haligned, rfl⟩ := writeReferenceAs_eq_ok.mp h₁
  obtain ⟨d₂', halign', h₂⟩ := h.align _ d₂ halign
  have hsize : ∀ (d : Draft) (r : Reference), (d.placeholder r).length = Pointer.slotSize :=
    fun _ _ => Scalar.length_encode ..
  have hgrows : body.GrowsTo { body with
      sites := body.sites ++ [⟨body.size, r, encoding⟩], size := body.size + (d₂.placeholder r).length } := by
    refine ⟨rfl, rfl, Nat.le_add_right _ _, List.prefix_refl _, [⟨body.size, r, encoding⟩], rfl, ?_⟩
    intro site hsite
    exact List.mem_singleton.mp hsite ▸ Nat.le_refl _
  have hgrown := h₂.grow (c := d₂'.placeholder (f r)) hactive hgrows rfl
    ⟨by rw [hsize, hsize], fun i hi => ?_⟩
  · refine ⟨_, writeReferenceAs_eq_ok.mpr
      ⟨d₂', index, _, _, halign', h₂.active hactive, hfits, haligned, rfl⟩, ?_⟩
    have hbody : Body.rename f { body with
          sites := body.sites ++ [⟨body.size, r, encoding⟩], size := body.size + (d₂.placeholder r).length }
        = { body.rename f with
          sites := (body.rename f).sites ++ [⟨body.size, f r, encoding⟩]
          size := body.size + (d₂'.placeholder (f r)).length } := by
      unfold Body.rename
      rw [hsize, hsize, List.map_append]
      rfl
    rw [hbody] at hgrown
    exact hgrown
  · -- Where the numbers differ is the slot of the new site.
    have houtside := hi ⟨body.size, r, encoding⟩ (List.mem_append_right _ (List.mem_singleton_self _))
    have hle : Pointer.slotSize ≤ i := by
      change _ < body.size ∨ body.size + _ ≤ _ at houtside
      omega
    rw [List.getElem?_eq_none (by rw [hsize]; exact hle), List.getElem?_eq_none (by rw [hsize]; exact hle)]

theorem Renamed.writeReference (h : Renamed f t d d') (r : Reference) :
    Follows (Renamed f t) (d.writeReference r) (d'.writeReference (f r)) := by
  unfold Draft.writeReference
  rw [h.encoding]
  exact h.writeReferenceAs r d.encoding

theorem Renamed.writeText (h : Renamed f t d d') (r : Reference) (byteCount charCount : UInt32) :
    Follows (Renamed f t) (d.writeText r byteCount charCount)
      (d'.writeText (f r) byteCount charCount) :=
  (h.writeReference r).bind fun _ _ h => (h.write _).bind fun _ _ h => h.write _

theorem Renamed.isMarked (h : Renamed f t d d') (unit : Nat) (r : Reference) :
    d'.isMarked unit (f r) = d.isMarked unit r := by
  rw [h.eq]
  unfold Draft.isMarked renamed
  rw [List.any_map]
  refine congrArg (List.any d.blocks) (funext fun block => ?_)
  obtain ⟨reference, alignment, limit, body⟩ := block
  cases body with
  | none => rfl
  | some body =>
    show (body.unit = unit && (body.marks.map (Mark.rename _)).any _) = _
    rw [List.any_map]
    refine congrArg ((body.unit = unit : Bool) && List.any body.marks ·) (funext fun mark => ?_)
    exact decide_eq_decide.mpr (h.injective).eq_iff

theorem Renamed.mark (h : Renamed f t d d') (r : Reference) :
    Follows (Renamed f t) (d.mark r) (d'.mark (f r)) := by
  intro d₁ h₁
  unfold Draft.mark at h₁ ⊢
  simp only [bind_eq_ok, active_eq_ok, requireUnit_eq_ok, Prod.exists, refuse_if_eq_ok, pure_eq_ok] at h₁ ⊢
  obtain ⟨index, block, body, hactive, unit, hunit, hfree, rfl⟩ := h₁
  rw [h.blockIndex?]
  simp only [h.isMarked]
  refine ⟨_, ⟨index, _, _, h.active hactive, unit, h.currentUnit.trans hunit, hfree, rfl⟩, ?_⟩
  have hgrows : body.GrowsTo { body with marks := body.marks ++ [⟨r, body.size⟩] } :=
    ⟨rfl, rfl, Nat.le_refl _, List.prefix_append _ _, [], (List.append_nil _).symm,
      List.forall_mem_nil _⟩
  have hgrown := h.grow hactive (b := []) (c := []) hgrows rfl (.refl _ _)
  have hbody : Body.rename f { body with marks := body.marks ++ [⟨r, body.size⟩] }
      = { body.rename f with
        marks := (body.rename f).marks ++ [⟨f r, body.size⟩] } := by
    unfold Body.rename
    rw [List.map_append]
    rfl
  rw [List.append_nil, List.append_nil, hbody] at hgrown
  exact hgrown

end Draft

/-! ### Operations -/

/-- An operation that names the renamed reference. -/
def Operation.rename (f : Reference → Reference) : Operation → Operation
  | .setRoot r => .setRoot (f r)
  | .openBlock r => .openBlock (f r)
  | .writeReference r => .writeReference (f r)
  | .writeReferenceAs r encoding => .writeReferenceAs (f r) encoding
  | .writeText r byteCount charCount => .writeText (f r) byteCount charCount
  | .mark r => .mark (f r)
  | op => op

theorem Operation.reference?_rename (f : Reference → Reference) (op : Operation) :
    (op.rename f).reference? = op.reference?.map f := by
  cases op <;> rfl

/-- An operation on a draft succeeds on the renamed one. -/
theorem Draft.Renamed.apply {f : Reference → Reference} {t : Nat} {d d' : Draft} (h : Renamed f t d d')
    (op : Operation) : Follows (Renamed f t) (d.apply op) (d'.apply (op.rename f)) := by
  cases op with
  | takeReference => exact .ok h.takeReference.2
  | registerUnit signature => exact .ok (h.unitIndex signature).2
  | openUnit index => exact h.openUnit index
  | closeUnit => exact h.closeUnit
  | setRoot r => exact h.setRoot r
  | setEncoding encoding => exact .ok (h.setEncoding encoding)
  | newBlock alignment limit => exact (h.newBlock _ _).map fun _ _ h => h.2
  | openBlock r => exact h.openBlock r
  | closeBlock => exact h.closeBlock
  | write step => exact h.perform step
  | writeReference r => exact h.writeReference r
  | writeReferenceAs r encoding => exact h.writeReferenceAs r encoding
  | writeText r byteCount charCount => exact h.writeText r byteCount charCount
  | mark r => exact h.mark r

end ObjectPack
