import ObjectPack.Proofs.Draft.Valid
import ObjectPack.Proofs.Patch

/-!
# What later operations keep

Drafts only grow: nothing that has been written into the buffer is written again, a block that has
been opened keeps its unit and its place, and sites are only added at its end (`Moves.extends`).  So
what is written at one moment can still be found at the end; a null reference is the example that is
followed up (`NullWritten.slot`).
-/

namespace ObjectPack

/-- Whether a body has become another one by writing at its end. -/
structure Body.GrowsTo (body body' : Body) : Prop where
  unit : body'.unit = body.unit
  start : body'.start = body.start
  size : body.size ≤ body'.size
  marks : body.marks <+: body'.marks
  sites : ∃ later, body'.sites = body.sites ++ later ∧ ∀ site ∈ later, body.size ≤ site.offset

theorem Body.GrowsTo.refl (body : Body) : body.GrowsTo body :=
  ⟨rfl, rfl, Nat.le_refl _, List.prefix_refl _, [], (List.append_nil _).symm,
    fun _ hsite => absurd hsite List.not_mem_nil⟩

theorem Body.GrowsTo.trans {a b c : Body} (h : a.GrowsTo b) (h' : b.GrowsTo c) : a.GrowsTo c := by
  obtain ⟨first, hfirst, hfirst'⟩ := h.sites
  obtain ⟨second, hsecond, hsecond'⟩ := h'.sites
  refine ⟨h'.unit.trans h.unit, h'.start.trans h.start, Nat.le_trans h.size h'.size,
    h.marks.trans h'.marks, first ++ second, ?_, ?_⟩
  · rw [hsecond, hfirst, List.append_assoc]
  · intro site hsite
    rcases List.mem_append.mp hsite with hsite | hsite
    · exact hfirst' site hsite
    · exact Nat.le_trans h.size (hsecond' site hsite)

namespace Draft

open Relation Outcome

/-- Whether a draft holds all that another one does, at the same places. -/
structure Extends (d d' : Draft) : Prop where
  buffer : d.buffer <+: d'.buffer
  blocks : ∀ (index : Nat) (block : Block) (body : Body), d.blocks[index]? = some block →
    block.body = some body → ∃ block' body', d'.blocks[index]? = some block' ∧
      block'.reference = block.reference ∧ block'.body = some body' ∧ body.GrowsTo body'

theorem Extends.refl (d : Draft) : d.Extends d :=
  ⟨List.prefix_refl _, fun _ block body hblock hbody => ⟨block, body, hblock, rfl, hbody, .refl body⟩⟩

theorem Extends.trans {a b c : Draft} (h : a.Extends b) (h' : b.Extends c) : a.Extends c := by
  refine ⟨h.buffer.trans h'.buffer, fun index block body hblock hbody => ?_⟩
  obtain ⟨block₁, body₁, hblock₁, hreference₁, hbody₁, hgrows₁⟩ := h.blocks index block body hblock hbody
  obtain ⟨block₂, body₂, hblock₂, hreference₂, hbody₂, hgrows₂⟩ :=
    h'.blocks index block₁ body₁ hblock₁ hbody₁
  exact ⟨block₂, body₂, hblock₂, hreference₂.trans hreference₁, hbody₂, hgrows₁.trans hgrows₂⟩

variable {d d' : Draft} {index : Nat} {block : Block} {body : Body}
  {allowed : PointerEncoding → Prop}

/-- A draft with the same blocks and a longer buffer. -/
theorem Extends.of_blocks (blocks : d'.blocks = d.blocks) (buffer : d.buffer <+: d'.buffer) :
    d.Extends d' :=
  ⟨buffer, fun _ block body hblock hbody =>
    ⟨block, body, blocks ▸ hblock, rfl, hbody, .refl body⟩⟩

/-- A draft in which the body of the open block has grown. -/
theorem Extends.of_body {body' : Body} (active : d.active? = some (index, block, body))
    (blocks : d'.blocks = (d.setBody index body').blocks) (buffer : d.buffer <+: d'.buffer)
    (grows : body.GrowsTo body') : d.Extends d' := by
  refine ⟨buffer, fun j b c hb hc => ?_⟩
  obtain ⟨-, hfound, hbody⟩ := active?_eq_some.mp active
  rw [blocks, setBody_blocks active, List.getElem?_set]
  by_cases hj : index = j
  · subst hj
    rw [hfound] at hb
    cases hb
    rw [hbody] at hc
    cases hc
    rw [if_pos rfl, if_pos (List.getElem?_eq_some_iff.mp hfound).1]
    exact ⟨_, body', rfl, rfl, rfl, grows⟩
  · rw [if_neg hj]
    exact ⟨b, c, hb, rfl, hc, .refl c⟩

theorem Move.extends (h : Move allowed d d') : d.Extends d' := by
  cases h with
  | takeReference => exact .of_blocks rfl (List.prefix_refl _)
  | registerUnit => exact .of_blocks rfl (List.prefix_refl _)
  | openUnit => exact .of_blocks rfl (List.prefix_refl _)
  | closeUnit => exact .of_blocks rfl (List.prefix_refl _)
  | setRoot => exact .of_blocks rfl (List.prefix_refl _)
  | setEncoding => exact .of_blocks rfl (List.prefix_refl _)
  | newBlock alignment limit power word =>
    refine ⟨List.prefix_refl _, fun j b c hb hc => ⟨b, c, ?_, rfl, hc, .refl c⟩⟩
    rw [List.getElem?_append_left (List.getElem?_eq_some_iff.mp hb).1]
    exact hb
  | openBlock i unit opening closed opened found fresh =>
    refine ⟨List.prefix_refl _, fun j b c hb hc => ⟨b, c, ?_, rfl, hc, .refl c⟩⟩
    rw [List.getElem?_set, if_neg]
    · exact hb
    · -- The block that is opened had no body yet.
      rintro rfl
      rw [found] at hb
      cases hb
      rw [fresh] at hc
      cases hc
  | closeBlock => exact .of_blocks rfl (List.prefix_append _ _)
  | append i opened written b active fits =>
    refine .of_body active rfl (List.prefix_append _ _)
      ⟨rfl, rfl, Nat.le_add_right _ _, List.prefix_refl _, [], (List.append_nil _).symm, ?_⟩
    intro site hsite
    cases hsite
  | site i opened written reference encoding active fits aligned known mode =>
    refine .of_body active rfl (List.prefix_append _ _)
      ⟨rfl, rfl, Nat.le_add_right _ _, List.prefix_refl _, [⟨written.size, reference, encoding⟩], rfl,
        ?_⟩
    intro site hsite
    exact List.mem_singleton.mp hsite ▸ Nat.le_refl _
  | mark i unit opened written reference active openedUnit unnamed unmarked known =>
    exact .of_body active rfl (List.prefix_refl _)
      ⟨rfl, rfl, Nat.le_refl _, List.prefix_append _ _, [], (List.append_nil _).symm,
        fun site hsite => absurd hsite List.not_mem_nil⟩

/-- Moves keep what has been written. -/
theorem Moves.extends (h : Moves allowed d d') : d.Extends d' := by
  induction h with
  | refl => exact .refl d
  | tail _ hmove ih => exact ih.trans hmove.extends

theorem Moves.endian_eq (h : Moves allowed d d') : d'.endian = d.endian := by
  have hplatform : d'.platform = d.platform := by
    induction h with
    | refl => rfl
    | tail _ hmove ih => cases hmove <;> exact ih
  exact congrArg Platform.endian hplatform

/-! ### Encodings -/

/-- A site that is there after a move has been there before, in a body that began where its body begins now, or the
move has written it: then it stands at the end of the body that was open, in an allowed encoding. -/
theorem Move.site_cases (hmove : Move allowed d d') {b : Block} (hb : b ∈ d'.blocks) {c : Body} (hc : c ∈ b.body)
    {site : Site} (hsite : site ∈ c.sites) :
    (∃ block ∈ d.blocks, ∃ body ∈ block.body, c.start = body.start ∧ site ∈ body.sites) ∨
      ∃ index block body, d.active? = some (index, block, body) ∧ c.start = body.start ∧ site.offset = body.size ∧
        allowed site.encoding ∧ d'.buffer = d.buffer ++ d.placeholder site.target := by
  have hkept : ∀ block ∈ d.blocks, c ∈ block.body →
      ∃ block ∈ d.blocks, ∃ body ∈ block.body, c.start = body.start ∧ site ∈ body.sites :=
    fun block hblock hbody => ⟨block, hblock, c, hbody, rfl, hsite⟩
  -- Where the open block changes, its body may have more sites than it had.
  have hchanged : ∀ {index block body} {body' : Body}, d.active? = some (index, block, body) →
      b ∈ (d.setBody index body').blocks → body'.start = body.start →
      (∃ block ∈ d.blocks, ∃ body ∈ block.body, c.start = body.start ∧ site ∈ body.sites) ∨
        c = body' ∧ (site ∈ body.sites → ∃ block ∈ d.blocks, ∃ body ∈ block.body,
          c.start = body.start ∧ site ∈ body.sites) := by
    intro index block body body' active hmem hstart
    obtain ⟨-, hfound, hbody⟩ := active?_eq_some.mp active
    rw [setBody_blocks active] at hmem
    rcases mem_set_of_ne hmem with rfl | ⟨j, -, hj⟩
    · obtain rfl : body' = c := Option.some.inj hc
      exact Or.inr ⟨rfl, fun hold => ⟨block, List.mem_of_getElem? hfound, body, hbody, hstart, hold⟩⟩
    · exact Or.inl (hkept b (List.mem_of_getElem? hj) hc)
  cases hmove with
  | takeReference | registerUnit | openUnit | closeUnit | setRoot | setEncoding | closeBlock =>
    exact Or.inl (hkept b hb hc)
  | newBlock alignment limit power word =>
    rcases List.mem_append.mp hb with hb | hb
    · exact Or.inl (hkept b hb hc)
    · rw [List.mem_singleton.mp hb] at hc
      cases hc
  | openBlock i unit opening closed opened found fresh =>
    rcases mem_set_of_ne hb with rfl | ⟨j, -, hj⟩
    · cases hc
      cases hsite
    · exact Or.inl (hkept b (List.mem_of_getElem? hj) hc)
  | append i opened written content active fits =>
    rcases hchanged active hb rfl with hold | ⟨rfl, hold⟩
    · exact Or.inl hold
    · exact Or.inl (hold hsite)
  | site i opened written reference encoding active fits aligned known mode =>
    rcases hchanged active hb rfl with hold | ⟨rfl, hold⟩
    · exact Or.inl hold
    · refine (List.mem_append.mp hsite).imp hold fun hnew => ?_
      obtain rfl := List.mem_singleton.mp hnew
      exact ⟨i, opened, written, active, rfl, rfl, mode, rfl⟩
  | mark i unit opened written reference active openedUnit unnamed unmarked known =>
    rcases hchanged active hb rfl with hold | ⟨rfl, hold⟩
    · exact Or.inl hold
    · exact Or.inl (hold hsite)

/-- Whether all sites of a draft are written in allowed encodings. -/
def EncodedIn (d : Draft) (allowed : PointerEncoding → Prop) : Prop :=
  ∀ block ∈ d.blocks, ∀ body ∈ block.body, ∀ site ∈ body.sites, allowed site.encoding

theorem Move.encodedIn (hmove : Move allowed d d') (h : d.EncodedIn allowed) : d'.EncodedIn allowed := by
  intro b hb c hc site hsite
  rcases hmove.site_cases hb hc hsite with ⟨block, hblock, body, hbody, -, hold⟩ | ⟨-, -, -, -, -, -, hmode, -⟩
  · exact h block hblock body hbody site hold
  · exact hmode

theorem Moves.encodedIn (hmoves : Moves allowed d d') (h : d.EncodedIn allowed) :
    d'.EncodedIn allowed := by
  induction hmoves with
  | refl => exact h
  | tail _ hmove ih => exact hmove.encodedIn ih

/-! ### Content -/

/-- Whether a body holds some bytes at an offset, apart from its sites. -/
structure HoldsAt (d : Draft) (body : Body) (offset : Nat) (b : Bytes) : Prop where
  inside : offset + b.length ≤ body.size
  content : Bytes.HasAt d.buffer (body.start + offset) b
  apart : ∀ site ∈ body.sites,
    site.offset + Pointer.slotSize ≤ offset ∨ offset + b.length ≤ site.offset

/-- What is written later is written elsewhere. -/
theorem HoldsAt.extends {body' : Body} {offset : Nat} {b : Bytes} (h : d.HoldsAt body offset b)
    (grows : body.GrowsTo body') (buffer : d.buffer <+: d'.buffer)
    (inside : body.start + body.size ≤ d.buffer.length) : d'.HoldsAt body' offset b where
  inside := Nat.le_trans h.inside grows.size
  content := by
    intro i hi
    have hoffset := h.inside
    obtain ⟨rest, hrest⟩ := buffer
    rw [grows.start, ← hrest, List.getElem?_append_left (by omega)]
    exact h.content i hi
  apart := by
    obtain ⟨later, hsites, hlater⟩ := grows.sites
    intro site hsite
    rw [hsites] at hsite
    rcases List.mem_append.mp hsite with hold | hnew
    · exact h.apart site hold
    · exact Or.inr (Nat.le_trans h.inside (hlater site hnew))

/-- What is written behind all sites of the open block. -/
theorem grown_holdsAt (valid : d.Valid) (active : d.active? = some (index, block, body)) (b : Bytes) :
    (d.grown index body b).HoldsAt { body with size := body.size + b.length } body.size b where
  inside := Nat.le_refl _
  content := by
    intro i hi
    show (d.buffer ++ b)[body.start + body.size + i]? = _
    rw [(valid.cursor index block body active).1,
      List.getElem?_append_right (Nat.le_add_right _ _), Nat.add_sub_cancel_left]
  apart site hsite := by
    have hblock := List.mem_of_getElem? (active?_eq_some.mp active).2.1
    exact Or.inl ((valid.bodies block hblock body (active?_eq_some.mp active).2.2).slotsInside site
      hsite)

/-! ### Null references -/

/-- Whether a run has written a null reference at an offset of a block. -/
def NullWritten (start : Draft) (ops : List Operation) (d : Draft) (reference : Reference)
    (offset : Nat) : Prop :=
  ∃ before after d₁ d₂ index block body, ops = before ++ .write .nullReference :: after ∧
    Run start before d₁ ∧ d₁.apply (.write .nullReference) = .ok d₂ ∧ Run d₂ after d ∧
    d₂.active? = some (index, block, body) ∧ block.reference = reference ∧
    body.size = offset + Pointer.slotSize

theorem encode_zero (e : Endian) : (Scalar.u64 0).encode e = Bytes.zeros Pointer.slotSize := by
  cases e <;> decide

/-- A null reference is written as zeros. -/
theorem writeNull_holdsAt (valid : d.Valid) (h : d.writeNull = .ok d') :
    ∃ index block body offset, d'.active? = some (index, block, body) ∧
      body.size = offset + Pointer.slotSize ∧
      d'.HoldsAt body offset (Bytes.zeros Pointer.slotSize) := by
  unfold writeNull at h
  simp only [bind_eq_ok] at h
  obtain ⟨d₁, halign, hwrite⟩ := h
  obtain ⟨index, block, body, hactive, -, rfl⟩ := append_eq_ok.mp (write_eq_ok.mp hwrite).2
  have hmoves : Moves (fun _ => True) d d₁ := (align_appends halign).moves
  rw [encode_zero]
  have hlength := Bytes.length_zeros Pointer.slotSize
  exact ⟨index, _, _, body.size, setBody_active _ hactive, congrArg (body.size + ·) hlength,
    grown_holdsAt (valid.moves hmoves) hactive _⟩

theorem NullWritten.of_after? {start d₂ : Draft} {before after : List Operation} {index : Nat}
    {block : Block} {body : Body} {offset : Nat}
    (hd₂ : start.after? (before ++ [.write .nullReference]) = some d₂)
    (hd : d₂.after? after = some d)
    (active : d₂.active? = some (index, block, body)) (size : body.size = offset + Pointer.slotSize) :
    NullWritten start (before ++ .write .nullReference :: after) d block.reference offset := by
  rw [after?_append] at hd₂
  obtain ⟨d₁, hbefore, hd₂⟩ := Option.bind_eq_some_iff.mp hd₂
  cases run_of_after? hd₂ with
  | step known applied rest =>
    cases rest
    exact ⟨before, after, d₁, d₂, index, block, body, rfl, run_of_after? hbefore, applied,
      run_of_after? hd, active, rfl, size⟩

/-- A null reference that a run has written is still there at its end. -/
theorem NullWritten.slot {start : Draft} {ops : List Operation} {reference : Reference} {offset : Nat}
    (valid : start.Valid) (h : NullWritten start ops d reference offset) :
    ∃ block ∈ d.blocks, block.reference = reference ∧ ∃ body ∈ block.body,
      d.HoldsAt body offset (Bytes.zeros Pointer.slotSize) := by
  obtain ⟨before, after, d₁, d₂, index, block, body, -, hbefore, happly, hafter, hactive, rfl,
    hsize⟩ := h
  have hvalid₁ := valid.moves hbefore.moves
  obtain ⟨index', block', body', offset', hactive', hsize', hzeros⟩ :=
    writeNull_holdsAt hvalid₁ happly
  rw [hactive] at hactive'
  cases hactive'
  obtain rfl : offset' = offset := by omega
  have hmoves : Moves (fun _ => True) d₁ d₂ := (writeNull_appends happly).moves
  have hvalid₂ := hvalid₁.moves hmoves
  obtain ⟨-, hfound, hbody⟩ := active?_eq_some.mp hactive
  have hinside := (hvalid₂.bodies block (List.mem_of_getElem? hfound) body hbody).inside
  have hextends := hafter.moves.extends
  obtain ⟨block', body', hblock', hreference, hbody', hgrows⟩ :=
    hextends.blocks index block body hfound hbody
  exact ⟨block', List.mem_of_getElem? hblock', hreference, body', hbody',
    hzeros.extends hgrows hextends.buffer hinside⟩

end Draft

end ObjectPack
