import ObjectPack.Packing
import ObjectPack.Proofs.Draft.Write
import ObjectPack.Proofs.Model.Layout
import ObjectPack.Proofs.Model.Table

/-!
# Packed rows

What a row looks like where it is packed (`Row.PackedAs`): bytes that its value determines, and slots
that refer to the block of the row or to its text.  Bytes and slots are parameters, so that the same
words can be used of a block that is being written, of a finished draft and of a data unit that is read
back.  `writeRow_spec` says that packing a row leaves that behind, at the place that the layout gives the
row.
-/

namespace ObjectPack

open Outcome WriteStep

/-- Two words, one behind the other. -/
def Endian.twoWords (e : Endian) (first second : UInt32) : Bytes :=
  (Scalar.u32 first).encode e ++ (Scalar.u32 second).encode e

@[simp] theorem Endian.length_twoWords (e : Endian) (first second : UInt32) :
    (e.twoWords first second).length = 8 := by
  rw [twoWords, List.length_append, Scalar.length_encode, Scalar.length_encode]
  rfl

/-- How many elements a collection is said to have. -/
def Row.countWord (r : Row) : UInt32 := UInt32.ofNat r.count

/-- Whether a row is packed as a slot that refers to the block of the row. -/
def Row.HasBlock (r : Row) : Prop :=
  r.value = .present ∧
    (r.kind = .object ∨ (r.kind = .array ∨ r.kind = .dictionary) ∧ r.countWord ≠ 0)

namespace Packing

/-- What the rows of a data unit may refer to: the blocks of rows, the texts, and the data units that
have been met. -/
structure Scope where
  blocks : Reference → Nat → Prop
  texts : Nat → Prop
  units : Digest → Prop

/-- Whether a scope is part of another one. -/
structure Scope.Le (s t : Scope) : Prop where
  blocks : ∀ r i, s.blocks r i → t.blocks r i
  texts : ∀ index, s.texts index → t.texts index
  units : ∀ signature, s.units signature → t.units signature

end Packing

/-- What the value of a row looks like at an offset, where it is no reference. -/
def Row.plain? (r : Row) (registry : Registry) (e : Endian) (offset : Nat) : Option Bytes :=
  match r.value with
  | .bool value => some ((Scalar.u8 (if value then 1 else 0)).encode e)
  | .bitSet word => some ((Scalar.u32 word).encode e)
  | .scalar value => some (value.encode e)
  | .enum enumeration value => some ((enumeration.pack value).encode e)
  | .struct value => some (allBytesAt e offset value.writes)
  | .dataUnit signature =>
    some (e.twoWords (registry.locate signature).container (registry.locate signature).entry)
  | .null =>
    match r.kind with
    | .string => some (Bytes.zeros 16)
    | .object => some (Bytes.zeros Pointer.slotSize)
    | .dataUnit => some (e.twoWords Location.unknown.container Location.unknown.entry)
    | _ => none
  | .present => none

/-- Whether row `i` is packed at an offset, where `holds` tells what bytes stand at an offset and
`refers` what reference. -/
structure Row.PackedAs (m : Model) (registry : Registry) (e : Endian) (scope : Packing.Scope)
    (holds : Nat → Bytes → Prop) (refers : Nat → Reference → Prop) (offset i : Nat) (r : Row) :
    Prop where
  plain : r.value ≠ .present → ∃ b, r.plain? registry e offset = some b ∧ holds offset b
  unit : ∀ signature, r.value = .dataUnit signature → scope.units signature
  text : r.value = .present → r.kind = .string → ∃ index text, r.start = some index ∧
    m.texts.entry index = .ok text ∧ scope.texts index ∧ refers offset text.reference ∧
    holds (offset + Pointer.slotSize)
      (e.twoWords (UInt32.ofNat text.byteCount) (UInt32.ofNat text.charCount))
  block : r.HasBlock → ∃ reference, scope.blocks reference i ∧ refers offset reference
  count : r.value = .present → r.kind = .array ∨ r.kind = .dictionary →
    holds (offset + Pointer.slotSize) (e.twoWords r.countWord r.countWord) ∧
    (r.countWord = 0 → holds offset (Bytes.zeros Pointer.slotSize))

/-- The write steps of a row that is no reference. -/
def Row.steps? (r : Row) (registry : Registry) : Option (List WriteStep) :=
  match r.value with
  | .bool value => some [.bool value]
  | .bitSet word => some [.scalar (.u32 word)]
  | .scalar value => some [.scalar value]
  | .enum enumeration value => some [.scalar (enumeration.pack value)]
  | .struct value => some value.writes
  | .dataUnit signature =>
    some [.location (registry.locate signature).container (registry.locate signature).entry]
  | .null =>
    match r.kind with
    | .string => some [.nullReference, .scalar (.u32 0), .scalar (.u32 0)]
    | .object => some [.nullReference]
    | .dataUnit => some [.location Location.unknown.container Location.unknown.entry]
    | _ => none
  | .present => none

/-- A row whose data stands elsewhere is packed if its slot and its counts are. -/
theorem Row.PackedAs.of_present {m : Model} {registry : Registry} {e : Endian}
    {scope : Packing.Scope} {holds : Nat → Bytes → Prop} {refers : Nat → Reference → Prop}
    {offset i : Nat} {r : Row} (present : r.value = .present)
    (text : r.kind = .string → ∃ index text, r.start = some index ∧
      m.texts.entry index = .ok text ∧ scope.texts index ∧ refers offset text.reference ∧
      holds (offset + Pointer.slotSize)
        (e.twoWords (UInt32.ofNat text.byteCount) (UInt32.ofNat text.charCount)))
    (block : r.HasBlock → ∃ reference, scope.blocks reference i ∧ refers offset reference)
    (count : r.kind = .array ∨ r.kind = .dictionary →
      holds (offset + Pointer.slotSize) (e.twoWords r.countWord r.countWord) ∧
      (r.countWord = 0 → holds offset (Bytes.zeros Pointer.slotSize))) :
    r.PackedAs m registry e scope holds refers offset i where
  plain hvalue := absurd present hvalue
  unit signature hvalue := by
    rw [present] at hvalue
    cases hvalue
  text _ := text
  block := block
  count _ := count

theorem Row.PackedAs.holds_plain {m : Model} {registry : Registry} {e : Endian}
    {scope : Packing.Scope} {holds : Nat → Bytes → Prop} {refers : Nat → Reference → Prop}
    {offset i : Nat} {r : Row} (h : r.PackedAs m registry e scope holds refers offset i) {b : Bytes}
    (plain : r.plain? registry e offset = some b) : holds offset b := by
  obtain ⟨b', hb', hholds⟩ := h.plain fun hvalue => by
    rw [Row.plain?, hvalue] at plain
    cases plain
  rw [plain] at hb'
  exact Option.some.inj hb' ▸ hholds

theorem Row.PackedAs.mono {m : Model} {registry : Registry} {e : Endian}
    {scope scope' : Packing.Scope} {holds holds' : Nat → Bytes → Prop}
    {refers refers' : Nat → Reference → Prop} {offset i : Nat} {r : Row}
    (h : r.PackedAs m registry e scope holds refers offset i) (wider : scope.Le scope')
    (keeps : ∀ offset b, holds offset b → holds' offset b)
    (leads : ∀ offset reference, refers offset reference → refers' offset reference) :
    r.PackedAs m registry e scope' holds' refers' offset i where
  plain hvalue := by
    obtain ⟨b, hb, hholds⟩ := h.plain hvalue
    exact ⟨b, hb, keeps offset b hholds⟩
  unit signature hvalue := wider.units signature (h.unit signature hvalue)
  text hvalue hkind := by
    obtain ⟨index, text, hstart, htext, hused, hrefers, hholds⟩ := h.text hvalue hkind
    exact ⟨index, text, hstart, htext, wider.texts index hused, leads _ _ hrefers, keeps _ _ hholds⟩
  block hblock := by
    obtain ⟨reference, hmade, hrefers⟩ := h.block hblock
    exact ⟨reference, wider.blocks reference i hmade, leads _ _ hrefers⟩
  count hvalue hkind := by
    obtain ⟨hcount, hempty⟩ := h.count hvalue hkind
    exact ⟨keeps _ _ hcount, fun hzero => keeps _ _ (hempty hzero)⟩

namespace Packing

variable {m : Model} {registry : Registry} {p p' p'' : Packer} {index i : Nat}
  {reference : Reference} {body body' : Body}

/-! ### The state of packing -/

/-- What a packer has deferred and met. -/
def Packer.scope (p : Packer) : Scope := ⟨fun r i => (r, i) ∈ p.blocks, (· ∈ p.texts), (· ∈ p.met)⟩

/-- Whether packing has only used more texts and met more data units, each of them once. -/
structure Gathers (m : Model) (p p' : Packer) : Prop where
  texts : p.texts <+: p'.texts
  units : ∃ later : List (Nat × Digest), p'.units = p.units ++ later.map (·.1) ∧
    p'.met = (later.map (·.2)).reverse ++ p.met ∧
    (∀ u ∈ later, ∃ row, m.row u.1 = .ok row ∧ row.value = .dataUnit u.2) ∧
    (p.met.Nodup → p'.met.Nodup)

/-- Whether packing has, besides, only put blocks off, of rows that own one. -/
structure Leads (m : Model) (p p' : Packer) : Prop extends Gathers m p p' where
  blocks : ∃ made, p'.blocks = p.blocks ++ made ∧
    ∀ b ∈ made, ∃ span starts, m.OffsetsOf b.2 span starts

/-- Packing that uses more texts at most. -/
theorem Gathers.of_eq (texts : p.texts <+: p'.texts) (units : p'.units = p.units)
    (met : p'.met = p.met) : Gathers m p p' where
  texts := texts
  units := ⟨[], by rw [units, List.map_nil, List.append_nil], by rw [met]; rfl,
    fun u hu => absurd hu List.not_mem_nil, fun h => met ▸ h⟩

theorem Gathers.trans (h : Gathers m p p') (h' : Gathers m p' p'') : Gathers m p p'' where
  texts := h.texts.trans h'.texts
  units := by
    obtain ⟨first, hfirst, hmet, hrows, hnodup⟩ := h.units
    obtain ⟨second, hsecond, hmet', hrows', hnodup'⟩ := h'.units
    refine ⟨first ++ second, ?_, ?_, fun u hu => ?_, fun hmet => hnodup' (hnodup hmet)⟩
    · rw [hsecond, hfirst, List.map_append, List.append_assoc]
    · rw [hmet', hmet, List.map_append, List.reverse_append, List.append_assoc]
    · rcases List.mem_append.mp hu with hu | hu
      · exact hrows u hu
      · exact hrows' u hu

theorem Gathers.met_subset (h : Gathers m p p') : p.met ⊆ p'.met := by
  obtain ⟨later, -, hmet, -⟩ := h.units
  rw [hmet]
  exact List.subset_append_right _ _

/-- Packing that meets no data unit. -/
theorem Leads.of_blocks {made : List (Reference × Nat)} (blocks : p'.blocks = p.blocks ++ made)
    (owned : ∀ b ∈ made, ∃ span starts, m.OffsetsOf b.2 span starts) (texts : p.texts <+: p'.texts)
    (units : p'.units = p.units) (met : p'.met = p.met) : Leads m p p' where
  toGathers := .of_eq texts units met
  blocks := ⟨made, blocks, owned⟩

/-- Packing that puts nothing off. -/
theorem Leads.of_eq (blocks : p'.blocks = p.blocks) (texts : p.texts <+: p'.texts)
    (units : p'.units = p.units) (met : p'.met = p.met) : Leads m p p' :=
  .of_blocks (blocks.trans (List.append_nil _).symm) (fun _ hb => absurd hb List.not_mem_nil) texts
    units met

theorem Leads.trans (h : Leads m p p') (h' : Leads m p' p'') : Leads m p p'' where
  toGathers := h.toGathers.trans h'.toGathers
  blocks := by
    obtain ⟨first, hfirst, howns⟩ := h.blocks
    obtain ⟨second, hsecond, howns'⟩ := h'.blocks
    refine ⟨first ++ second, by rw [hsecond, hfirst, List.append_assoc], fun b hb => ?_⟩
    rcases List.mem_append.mp hb with hb | hb
    · exact howns b hb
    · exact howns' b hb

theorem Leads.scope_le (h : Leads m p p') : p.scope.Le p'.scope where
  blocks r i hmem := by
    obtain ⟨made, hmade, -⟩ := h.blocks
    show (r, i) ∈ p'.blocks
    rw [hmade]
    exact List.mem_append_left made hmem
  texts index hmem := h.texts.subset hmem
  units signature hmem := h.met_subset hmem

/-- A data unit that is met is put off unless one of its signature has been met. -/
theorem meet_leads {signature : Digest} {row : Row} (hrow : m.row i = .ok row)
    (hvalue : row.value = .dataUnit signature) : Leads m p (meet p i signature) ∧
      signature ∈ (meet p i signature).met := by
  unfold meet
  by_cases hmet : p.met.contains signature
  · rw [if_pos hmet]
    exact ⟨.of_eq rfl (List.prefix_refl _) rfl rfl, List.contains_iff_mem.mp hmet⟩
  · rw [if_neg hmet]
    refine ⟨?_, List.mem_cons_self⟩
    exact
      { blocks := ⟨[], (List.append_nil _).symm, fun b hb => absurd hb List.not_mem_nil⟩
        texts := List.prefix_refl _
        units := ⟨[(i, signature)], rfl, rfl,
          fun u hu => List.mem_singleton.mp hu ▸ ⟨row, hrow, hvalue⟩,
          fun hnodup => List.nodup_cons.mpr
            ⟨fun hmem => hmet (List.contains_iff_mem.mpr hmem), hnodup⟩⟩ }

theorem onDraft_eq_ok {f : Draft → Except Fault Draft} :
    p.onDraft f = .ok p' ↔ ∃ d, f p.draft = .ok d ∧ p' = { p with draft := d } := by
  unfold Packer.onDraft
  simp only [bind_eq_ok, pure_eq_ok]
  exact exists_congr fun d => and_congr_right fun _ => eq_comm

/-- What putting a block off does. -/
theorem deferBlock_eq_ok {row : Nat} (h : deferBlock m p row = .ok (reference, p'))
    (owns : m.OwnsBlock row) : ∃ alignment size, alignment < wordLimit ∧
      p.draft.newBlock alignment (some size) = .ok (reference, p'.draft) ∧
      p'.blocks = p.blocks ++ [(reference, row)] ∧ reference.id < p'.draft.supply.next ∧
      Leads m p p' := by
  unfold deferBlock at h
  simp only [bind_eq_ok, pure_eq_ok, Prod.exists, Prod.mk.injEq] at h
  obtain ⟨alignment, halignment, size, hsize, r, draft, hnew, rfl, rfl⟩ := h
  obtain ⟨hoffsets, hword⟩ := m.offsets_of_blockSize owns hsize
  refine ⟨alignment, size, hword alignment halignment, hnew, rfl, ?_, ?_⟩
  · unfold Draft.newBlock at hnew
    simp only [refuse_if_eq_ok, pure_eq_ok] at hnew
    obtain ⟨-, hresult⟩ := hnew
    cases hresult
    exact Nat.lt_succ_self _
  · exact .of_blocks rfl (fun _ hb => List.mem_singleton.mp hb ▸ hoffsets) (List.prefix_refl _) rfl
      rfl

/-! ### Rows without references -/

/-- Where a row is packed at its alignment, its write steps leave behind what its value looks like. -/
theorem plain_of_steps {row : Row} {steps : List WriteStep} {e : Endian} {position start : Nat}
    (h : row.steps? registry = some steps) (fits : row.Fits)
    (aligned : ∀ alignment, row.alignment? = some alignment →
      alignUp position alignment = .ok start) :
    row.plain? registry e start = some (allBytesAt e start steps) := by
  -- Where a row starts at its alignment there is no padding in front of its steps.
  have hlocation : ∀ container entry, row.kind = .dataUnit →
      allBytesAt e start [.location container entry] = e.twoWords container entry := by
    intro container entry hkind
    have hpadding := padding_of_aligned (by decide) (aligned 4 (by rw [Row.alignment?, hkind]; rfl))
    rw [allBytesAt, allBytesAt, List.append_nil]
    show Bytes.zeros (padding start 4) ++ _ ++ _ = _
    rw [hpadding]
    rfl
  have hnull : row.kind = .string ∨ row.kind = .object →
      padding start Pointer.slotSize = 0 := by
    intro hkind
    refine padding_of_aligned (by decide) (aligned 8 ?_)
    rcases hkind with hkind | hkind <;> rw [Row.alignment?, hkind] <;> rfl
  unfold Row.steps? at h
  unfold Row.plain?
  unfold Row.Fits at fits
  cases hvalue : row.value with
  | present =>
    rw [hvalue] at h
    cases h
  | null =>
    rw [hvalue] at h
    cases hkind : row.kind <;> simp only [hkind] at h <;> cases h
    · have hpadding := hnull (Or.inl hkind)
      simp only [allBytesAt, bytesAt, hpadding]
      cases e <;> decide
    · have hpadding := hnull (Or.inr hkind)
      simp only [allBytesAt, bytesAt, hpadding]
      decide
    · rw [hlocation _ _ hkind]
  | struct value =>
    rw [hvalue] at h
    cases h
    rfl
  | dataUnit signature =>
    rw [hvalue] at h fits
    cases h
    exact congrArg some (hlocation _ _ fits).symm
  | _ =>
    rw [hvalue] at h
    cases h
    rw [allBytesAt, allBytesAt, List.append_nil]
    rfl

/-- The layout gives a row as many bytes as its value takes. -/
theorem size_of_plain {row : Row} {e : Endian} {start : Nat} {b : Bytes}
    (h : row.plain? registry e start = some b) (fits : row.Fits)
    (declared : ∀ value, row.value = .struct value → b.length = value.size) :
    row.size? = some b.length := by
  unfold Row.plain? at h
  unfold Row.Fits at fits
  unfold Row.size?
  -- The size that the layout knows by kind is compared with the bytes, value by value.
  cases hvalue : row.value with
  | present =>
    rw [hvalue] at h
    cases h
  | null =>
    rw [hvalue] at h
    cases hkind : row.kind <;> simp only [hkind] at h <;> cases h
    · rfl
    · rfl
    · rw [Endian.length_twoWords]
      rfl
  | struct value =>
    rw [hvalue] at fits
    rw [fits, declared value hvalue]
    rfl
  | dataUnit signature =>
    rw [hvalue] at h fits
    cases h
    rw [fits, Endian.length_twoWords]
    rfl
  | enum enumeration value =>
    rw [hvalue] at h fits
    cases h
    rw [fits, Scalar.length_encode, Enumeration.pack, Scalar.format_ofBits, ← Kind.byteSize_ofFormat]
    rfl
  | scalar value =>
    rw [hvalue] at h fits
    cases h
    rw [fits, Scalar.length_encode, ← Kind.byteSize_ofFormat]
    cases value <;> rfl
  | bool value =>
    rw [hvalue] at h fits
    cases h
    rw [fits, Scalar.length_encode]
    rfl
  | bitSet word =>
    rw [hvalue] at h fits
    cases h
    rw [fits, Scalar.length_encode]
    rfl

/-- The packer behind the write steps of row `i`, which has met the data unit of the row. -/
def Packer.behind (p : Packer) (i : Nat) (row : Row) (d : Draft) : Packer :=
  match row.value with
  | .dataUnit signature => meet { p with draft := d } i signature
  | _ => { p with draft := d }

theorem behind_draft (p : Packer) (i : Nat) (row : Row) (d : Draft) :
    (p.behind i row d).draft = d := by
  unfold Packer.behind meet
  split
  · split <;> rfl
  · rfl

theorem behind_leads {row : Row} (hrow : m.row i = .ok row) (d : Draft) :
    Leads m p (p.behind i row d) ∧
      ∀ signature, row.value = .dataUnit signature → signature ∈ (p.behind i row d).met := by
  have hdraft : Leads m p { p with draft := d } := .of_eq rfl (List.prefix_refl _) rfl rfl
  unfold Packer.behind
  split
  · rename_i signature hvalue
    obtain ⟨hleads, hmet⟩ := meet_leads hrow hvalue
    refine ⟨hdraft.trans hleads, fun other hother => ?_⟩
    rw [hvalue] at hother
    cases hother
    exact hmet
  · rename_i hnone
    exact ⟨hdraft, fun signature hvalue => absurd hvalue (hnone signature)⟩

/-- What packing a row does: padding, and then either the write steps of its value or a reference. -/
theorem writeRow_cases (h : writeRow m registry p i = .ok p') : ∃ alignment d₁ row,
    m.alignment i = .ok alignment ∧ p.draft.align alignment = .ok d₁ ∧ m.row i = .ok row ∧
    ((∃ steps d₂, row.steps? registry = some steps ∧ d₁.performAll steps = .ok d₂ ∧
        (∀ value, row.value = .struct value → ∃ before after, d₁.position = .ok before ∧
          d₂.position = .ok after ∧ after - before = value.size) ∧ p' = p.behind i row d₂) ∨
      row.value = .present ∧ writePresent m { p with draft := d₁ } i = .ok p') := by
  unfold writeRow at h
  simp only [bind_eq_ok, lift_eq_ok] at h
  obtain ⟨alignment, halignment, p₁, hpadded, row, hrow, h⟩ := h
  obtain ⟨d₁, halign, rfl⟩ := onDraft_eq_ok.mp hpadded
  refine ⟨alignment, d₁, row, halignment, halign, hrow, ?_⟩
  -- All values but custom ones and references are one write step.
  have hone : ∀ step q, Packer.onDraft { p with draft := d₁ } (·.perform step) = .ok q →
      ∃ d₂, d₁.performAll [step] = .ok d₂ ∧ q = { p with draft := d₂ } := by
    intro step q hstep
    obtain ⟨d₂, hperform, rfl⟩ := onDraft_eq_ok.mp hstep
    exact ⟨d₂, (Draft.performAll_singleton d₁ step).trans hperform, rfl⟩
  unfold Row.steps? Packer.behind
  cases hvalue : row.value with
  | present =>
    rw [hvalue] at h
    exact Or.inr ⟨rfl, lift_eq_ok.mp h⟩
  | struct value =>
    rw [hvalue] at h
    unfold writeStruct at h
    simp only [bind_eq_ok, lift_eq_ok, refuse_if_eq_ok, pure_eq_ok, not_not, ne_eq] at h
    obtain ⟨before, hbefore, p₂, hwrites, after, hafter, hsize, rfl⟩ := h
    obtain ⟨d₂, hperform, rfl⟩ := onDraft_eq_ok.mp hwrites
    refine Or.inl ⟨_, d₂, rfl, hperform, fun other hother => ?_, rfl⟩
    cases hother
    exact ⟨before, after, hbefore, hafter, hsize⟩
  | dataUnit signature =>
    rw [hvalue] at h
    simp only [bind_eq_ok, lift_eq_ok, pure_eq_ok] at h
    obtain ⟨p₂, hlocation, rfl⟩ := h
    obtain ⟨d₂, hperform, rfl⟩ := hone (.location _ _) _ hlocation
    exact Or.inl ⟨_, d₂, rfl, hperform, (fun _ hother => by cases hother), rfl⟩
  | null =>
    rw [hvalue] at h
    have habsent := lift_eq_ok.mp h
    unfold writeAbsent at habsent
    simp only [hrow, bind_eq_ok, Except.ok.injEq, exists_eq_left'] at habsent
    cases hkind : row.kind <;> simp only [hkind, throw_ne_ok] at habsent
    · obtain ⟨d₂, hperform, rfl⟩ := onDraft_eq_ok.mp habsent
      exact Or.inl ⟨_, d₂, rfl, hperform, (fun _ hother => by cases hother), rfl⟩
    · obtain ⟨d₂, hperform, rfl⟩ := hone .nullReference _ habsent
      exact Or.inl ⟨_, d₂, rfl, hperform, (fun _ hother => by cases hother), rfl⟩
    · obtain ⟨d₂, hperform, rfl⟩ := hone (.location _ _) _ habsent
      exact Or.inl ⟨_, d₂, rfl, hperform, (fun _ hother => by cases hother), rfl⟩
  | bool value =>
    rw [hvalue] at h
    obtain ⟨d₂, hperform, rfl⟩ := hone (.bool value) _ (lift_eq_ok.mp h)
    exact Or.inl ⟨_, d₂, rfl, hperform, (fun _ hother => by cases hother), rfl⟩
  | bitSet word =>
    rw [hvalue] at h
    obtain ⟨d₂, hperform, rfl⟩ := hone (.scalar (.u32 word)) _ (lift_eq_ok.mp h)
    exact Or.inl ⟨_, d₂, rfl, hperform, (fun _ hother => by cases hother), rfl⟩
  | scalar value =>
    rw [hvalue] at h
    obtain ⟨d₂, hperform, rfl⟩ := hone (.scalar value) _ (lift_eq_ok.mp h)
    exact Or.inl ⟨_, d₂, rfl, hperform, (fun _ hother => by cases hother), rfl⟩
  | enum enumeration value =>
    rw [hvalue] at h
    obtain ⟨d₂, hperform, rfl⟩ := hone (.scalar (enumeration.pack value)) _ (lift_eq_ok.mp h)
    exact Or.inl ⟨_, d₂, rfl, hperform, (fun _ hother => by cases hother), rfl⟩

/-! ### Rows with references -/

/-- A slot that refers to a block is a site. -/
theorem referToBlock_wrote (valid : p.draft.Valid) (opened : p.draft.OpenAt index reference body)
    (owns : m.OwnsBlock i) (h : referToBlock m p i = .ok p') : ∃ start body' target,
      Draft.Wrote index reference p.draft body p'.draft body' ∧
      alignUp body.size Pointer.slotSize = .ok start ∧ body'.size = start + Pointer.slotSize ∧
      (⟨start, target, p.draft.encoding⟩ : Site) ∈ body'.sites ∧ p'.scope.blocks target i ∧
      Leads m p p' := by
  unfold referToBlock at h
  simp only [bind_eq_ok, Prod.exists] at h
  obtain ⟨target, p₁, hdefer, hslot⟩ := h
  obtain ⟨d₂, hwrite, rfl⟩ := onDraft_eq_ok.mp hslot
  obtain ⟨alignment, size, hword, hnew, hblocks, hknown, hleads⟩ := deferBlock_eq_ok hdefer owns
  have hfirst := Draft.newBlock_wrote opened hnew hword
  obtain ⟨start, body', hsecond, hstart, hsize, hsite⟩ :=
    Draft.writeReference_wrote (valid.moves hfirst.moves) hfirst.opened hknown hwrite
  rw [hfirst.encoding] at hsite
  refine ⟨start, body', target, hfirst.trans hsecond, hstart, hsize, hsite, ?_,
    hleads.trans (.of_eq rfl (List.prefix_refl _) rfl rfl)⟩
  show (target, i) ∈ p₁.blocks
  rw [hblocks]
  exact List.mem_append_right _ (List.mem_singleton_self _)

/-- Whether packing row `i` at the cursor of the open block has left it behind there. -/
structure RowWritten (m : Model) (registry : Registry) (index : Nat) (reference : Reference)
    (p : Packer) (body : Body) (p' : Packer) (body' : Body) (offset i : Nat) (row : Row) : Prop where
  wrote : Draft.Wrote index reference p.draft body p'.draft body'
  packed : row.PackedAs m registry p.draft.endian p'.scope (p'.draft.HoldsAt body')
    (fun offset target => (⟨offset, target, p.draft.encoding⟩ : Site) ∈ body'.sites) offset i
  leads : Leads m p p'

/-- A text slot refers to the text. -/
theorem writeText_written {row : Row} (present : row.value = .present) (kind : row.kind = .string)
    {text : PooledText} {textIndex : Nat} (start : row.start = some textIndex)
    (entry : m.texts.entry textIndex = .ok text) (valid : p.draft.Valid)
    (opened : p.draft.OpenAt index reference body) {value : Nat}
    (aligned : alignUp value Pointer.slotSize = .ok body.size)
    (known : text.reference.id < p.draft.supply.next) {d : Draft}
    (h : p.draft.writeText text.reference (UInt32.ofNat text.byteCount)
      (UInt32.ofNat text.charCount) = .ok d) : ∃ body', body'.size = body.size + 16 ∧
      RowWritten m registry index reference p body
        { p with draft := d, texts := p.texts ++ [textIndex] } body' body.size i row := by
  obtain ⟨slot, body', hwrote, hslot, hsize, hsite, hwords⟩ :=
    Draft.writeText_wrote valid opened known h
  obtain rfl := alignUp_again (by decide) aligned hslot
  refine ⟨body', hsize, hwrote, ?_, .of_eq rfl (List.prefix_append _ _) rfl rfl⟩
  refine .of_present present (fun _ => ?_) (fun hblock => ?_) (fun hkind => ?_)
  · exact ⟨textIndex, text, start, entry, List.mem_append_right _ (List.mem_singleton_self _), hsite,
      hwords⟩
  · rcases hblock.2 with hkind | ⟨hkind | hkind, -⟩ <;> rw [kind] at hkind <;> cases hkind
  · rcases hkind with hkind | hkind <;> rw [kind] at hkind <;> cases hkind

/-- An object is a slot that refers to its block. -/
theorem writeObject_written {row : Row} (hrow : m.row i = .ok row) (present : row.value = .present)
    (kind : row.kind = .object) (valid : p.draft.Valid)
    (opened : p.draft.OpenAt index reference body) {value : Nat}
    (aligned : alignUp value Pointer.slotSize = .ok body.size)
    (h : referToBlock m p i = .ok p') : ∃ body', body'.size = body.size + Pointer.slotSize ∧
      RowWritten m registry index reference p body p' body' body.size i row := by
  have howns : m.OwnsBlock i := ⟨row, hrow, Or.inl kind⟩
  obtain ⟨slot, body', target, hwrote, hslot, hsize, hsite, hmade, hleads⟩ :=
    referToBlock_wrote valid opened howns h
  obtain rfl := alignUp_again (by decide) aligned hslot
  refine ⟨body', hsize, hwrote, ?_, hleads⟩
  refine .of_present present (fun hkind => ?_) (fun _ => ⟨target, hmade, hsite⟩) (fun hkind => ?_)
  · rw [kind] at hkind
    cases hkind
  · rcases hkind with hkind | hkind <;> rw [kind] at hkind <;> cases hkind

/-- A collection is a slot that refers to its block, or to nothing, and its count twice. -/
theorem writeCollection_written {row : Row} (hrow : m.row i = .ok row)
    (present : row.value = .present) (kind : row.kind = .array ∨ row.kind = .dictionary)
    (valid : p.draft.Valid) (opened : p.draft.OpenAt index reference body) {value : Nat}
    (aligned : alignUp value Pointer.slotSize = .ok body.size) {p₁ : Packer}
    (slot : (if row.countWord = 0 then p.onDraft (·.writeNull) else referToBlock m p i) = .ok p₁)
    (h : p₁.onDraft (·.performAll [.scalar (.u32 row.countWord), .scalar (.u32 row.countWord)])
      = .ok p') : ∃ body', body'.size = body.size + 16 ∧
      RowWritten m registry index reference p body p' body' body.size i row := by
  have howns : m.OwnsBlock i := ⟨row, hrow, Or.inr kind⟩
  -- An empty collection leaves a null pointer, any other one a site that refers to its block.
  have hslot : ∃ body₁, Draft.Wrote index reference p.draft body p₁.draft body₁ ∧
      body₁.size = body.size + Pointer.slotSize ∧ Leads m p p₁ ∧
      (row.countWord = 0 → p₁.draft.HoldsAt body₁ body.size (Bytes.zeros Pointer.slotSize)) ∧
      (row.countWord ≠ 0 → ∃ target, p₁.scope.blocks target i ∧
        (⟨body.size, target, p.draft.encoding⟩ : Site) ∈ body₁.sites) := by
    by_cases hcount : row.countWord = 0
    · rw [if_pos hcount] at slot
      obtain ⟨d₁, hnull, rfl⟩ := onDraft_eq_ok.mp slot
      obtain ⟨body₁, hwrote, hsize, hholds⟩ :=
        Draft.perform_wrote valid opened (show p.draft.perform .nullReference = .ok d₁ from hnull)
      have hpadding := padding_of_aligned (by decide) aligned
      rw [bytesAt, hpadding] at hsize hholds
      exact ⟨body₁, hwrote, hsize, .of_eq rfl (List.prefix_refl _) rfl rfl, fun _ => hholds,
        fun hne => absurd hcount hne⟩
    · rw [if_neg hcount] at slot
      obtain ⟨start, body₁, target, hwrote, hstart, hsize, hsite, hmade, hleads⟩ :=
        referToBlock_wrote valid opened howns slot
      obtain rfl := alignUp_again (by decide) aligned hstart
      exact ⟨body₁, hwrote, hsize, hleads, fun hzero => absurd hzero hcount,
        fun _ => ⟨target, hmade, hsite⟩⟩
  obtain ⟨body₁, hfirst, hsize₁, hleads, hempty, hblock⟩ := hslot
  obtain ⟨d₂, hcounts, rfl⟩ := onDraft_eq_ok.mp h
  have hvalid₁ := valid.moves hfirst.moves
  obtain ⟨body₂, hsecond, hsize₂, hholds₂⟩ :=
    Draft.performAll_wrote hvalid₁ hfirst.opened hcounts
  have hbytes : allBytesAt p₁.draft.endian body₁.size
      [.scalar (.u32 row.countWord), .scalar (.u32 row.countWord)]
      = p.draft.endian.twoWords row.countWord row.countWord := by
    rw [allBytesAt, allBytesAt, allBytesAt, List.append_nil, hfirst.endian]
    rfl
  rw [hbytes, hsize₁] at hsize₂ hholds₂
  rw [Endian.length_twoWords] at hsize₂
  refine ⟨body₂, hsize₂, hfirst.trans hsecond, ?_,
    hleads.trans (.of_eq rfl (List.prefix_refl _) rfl rfl)⟩
  refine .of_present present (fun hkind => ?_) (fun hhas => ?_) (fun _ => ⟨hholds₂,
    fun hzero => (hempty hzero).wrote hvalid₁ hfirst.opened hsecond⟩)
  · rcases kind with kind | kind <;> rw [kind] at hkind <;> cases hkind
  · have hcount : row.countWord ≠ 0 := by
      rcases hhas.2 with hkind | ⟨-, hcount⟩
      · rcases kind with kind | kind <;> rw [kind] at hkind <;> cases hkind
      · exact hcount
    obtain ⟨target, hmade, hsite⟩ := hblock hcount
    exact ⟨target, hmade, hsecond.grows.mem_sites hsite⟩

/-- A row whose data stands elsewhere leaves a slot behind. -/
theorem writePresent_written {row : Row} (hrow : m.row i = .ok row) (present : row.value = .present)
    (valid : p.draft.Valid) (opened : p.draft.OpenAt index reference body) {value : Nat}
    (aligned : alignUp value Pointer.slotSize = .ok body.size)
    (known : ∀ text ∈ m.texts.entries, text.reference.id < p.draft.supply.next)
    (h : writePresent m p i = .ok p') : ∃ body' size, row.size? = some size ∧
      body'.size = body.size + size ∧
      RowWritten m registry index reference p body p' body' body.size i row := by
  unfold writePresent at h
  simp only [hrow, bind_eq_ok, Except.ok.injEq, exists_eq_left'] at h
  -- Only texts, objects and collections are present.
  cases hkind : row.kind <;> simp only [hkind, throw_ne_ok] at h
  case string =>
    simp only [bind_eq_ok, pure_eq_ok] at h
    obtain ⟨textIndex, hindex, text, htext, p₂, hdraft, rfl⟩ := h
    obtain ⟨d, hwrite, rfl⟩ := onDraft_eq_ok.mp hdraft
    have hmem : text ∈ m.texts.entries := List.mem_of_getElem? (indexed_eq_ok.mp htext)
    obtain ⟨body', hsize, hwritten⟩ := writeText_written present hkind
      ((Model.requireStart_eq_ok hrow).mp hindex) htext valid opened aligned (known text hmem) hwrite
    exact ⟨body', 16, by rw [Row.size?, hkind]; rfl, hsize, hwritten⟩
  case object =>
    obtain ⟨body', hsize, hwritten⟩ := writeObject_written hrow present hkind valid opened aligned h
    exact ⟨body', Pointer.slotSize, by rw [Row.size?, hkind]; rfl, hsize, hwritten⟩
  case array =>
    obtain ⟨p₁, hslot, hcounts⟩ := ite_bind_eq_ok.mp h
    obtain ⟨body', hsize, hwritten⟩ :=
      writeCollection_written hrow present (Or.inl hkind) valid opened aligned hslot hcounts
    exact ⟨body', 16, by rw [Row.size?, hkind]; rfl, hsize, hwritten⟩
  case dictionary =>
    obtain ⟨p₁, hslot, hcounts⟩ := ite_bind_eq_ok.mp h
    obtain ⟨body', hsize, hwritten⟩ :=
      writeCollection_written hrow present (Or.inr hkind) valid opened aligned hslot hcounts
    exact ⟨body', 16, by rw [Row.size?, hkind]; rfl, hsize, hwritten⟩

/-! ### Any row -/

/-- Where the layout places a row. -/
theorem placeRow_eq_ok {m : Model} {position start stop : Nat} {row : Row}
    (hrow : m.row i = .ok row) (h : m.placeRow position i = .ok (start, stop)) :
    (∃ alignment, row.alignment? = some alignment ∧ m.alignment i = .ok alignment ∧
      alignUp position alignment = .ok start) ∧
    ∃ size, row.size? = some size ∧ stop = start + size := by
  unfold Model.placeRow addWord at h
  simp only [bind_eq_ok, pure_eq_ok, Prod.mk.injEq] at h
  obtain ⟨alignment, halignment, start', hstart, size, hsize, stop', hstop, rfl, rfl⟩ := h
  constructor
  · refine ⟨alignment, ?_, halignment, hstart⟩
    unfold Model.alignment at halignment
    simp only [hrow, bind_eq_ok, Except.ok.injEq, exists_eq_left'] at halignment
    cases hsome : row.alignment? with
    | none => simp only [hsome, throw_ne_ok] at halignment
    | some a =>
      simp only [hsome, pure_eq_ok] at halignment
      rw [halignment]
  · refine ⟨size, ?_, ?_⟩
    · unfold Model.byteSize at hsize
      simp only [hrow, bind_eq_ok, Except.ok.injEq, exists_eq_left'] at hsize
      cases hsome : row.size? with
      | none => simp only [hsome, throw_ne_ok] at hsize
      | some a =>
        simp only [hsome, pure_eq_ok] at hsize
        rw [hsize]
    · split at hstop
      · exact (Except.ok.inj hstop).symm
      · cases hstop

/-- What has been written in front of a row does not matter to it. -/
theorem RowWritten.after {d : Draft} {body₁ : Body} {offset : Nat} {row : Row}
    (first : Draft.Wrote index reference p.draft body d body₁)
    (h : RowWritten m registry index reference { p with draft := d } body₁ p' body' offset i row) :
    RowWritten m registry index reference p body p' body' offset i row where
  wrote := first.trans h.wrote
  packed := by
    have hpacked := h.packed
    rw [show ({ p with draft := d } : Packer).draft = d from rfl, first.endian,
      first.encoding] at hpacked
    exact hpacked
  leads :=
    (show Leads m p { p with draft := d } from .of_eq rfl (List.prefix_refl _) rfl rfl).trans h.leads

/-- A row is packed where the layout places it, behind zeros, and takes as many bytes as the layout
gives it. -/
theorem writeRow_written (fits : ∀ row, m.row i = .ok row → row.Fits) (valid : p.draft.Valid)
    (opened : p.draft.OpenAt index reference body)
    (known : ∀ text ∈ m.texts.entries, text.reference.id < p.draft.supply.next)
    {start stop : Nat} (placed : m.placeRow body.size i = .ok (start, stop))
    (h : writeRow m registry p i = .ok p') : ∃ row body', m.row i = .ok row ∧ body'.size = stop ∧
      p'.draft.HoldsAt body' body.size (Bytes.zeros (start - body.size)) ∧
      (∀ b, row.plain? registry p.draft.endian start = some b → start + b.length = stop) ∧
      RowWritten m registry index reference p body p' body' start i row := by
  obtain ⟨alignment, d₁, row, halignment, halign, hrow, hcases⟩ := writeRow_cases h
  obtain ⟨⟨alignment', halignment?, halignment', hstart⟩, size, hsize?, rfl⟩ :=
    placeRow_eq_ok hrow placed
  rw [halignment] at halignment'
  cases halignment'
  obtain ⟨body₁, hfirst, hstart₁, hzeros⟩ := Draft.align_wrote valid opened halign
  rw [hstart] at hstart₁
  cases hstart₁
  rw [padding_eq hstart] at hzeros
  have hvalid₁ := valid.moves hfirst.moves
  have hfits := fits row hrow
  refine ⟨row, ?_⟩
  -- Either the write steps of the value have been performed, or the row refers to what stands elsewhere.
  rcases hcases with ⟨steps, d₂, hsteps, hperform, hdeclared, rfl⟩ | ⟨hpresent, hwrite⟩
  · obtain ⟨body₂, hsecond, hsize₂, hholds⟩ :=
      Draft.performAll_wrote hvalid₁ hfirst.opened hperform
    have hplain := plain_of_steps (e := d₁.endian) hsteps hfits fun a ha => by
      rw [halignment?] at ha
      cases ha
      exact hstart
    have habsent : row.value ≠ .present := by
      intro hpresent
      rw [Row.steps?, hpresent] at hsteps
      cases hsteps
    have hlength := size_of_plain hplain hfits fun value hvalue => by
      obtain ⟨before, after, hbefore, hafter, hwritten⟩ := hdeclared value hvalue
      rw [hfirst.opened.position_eq] at hbefore
      rw [hsecond.opened.position_eq] at hafter
      cases hbefore
      cases hafter
      omega
    rw [hsize?] at hlength
    obtain rfl := Option.some.inj hlength
    obtain ⟨hleads, hmet⟩ := behind_leads (p := p) hrow d₂
    refine ⟨body₂, hrow, hsize₂, ?_, fun b hb => ?_, ?_⟩
    · rw [behind_draft]
      exact hzeros.wrote hvalid₁ hfirst.opened hsecond
    · rw [← hfirst.endian, hplain] at hb
      rw [Option.some.inj hb]
    exact
      { wrote := by
          rw [behind_draft]
          exact hfirst.trans hsecond
        packed := by
          rw [behind_draft]
          exact
            { plain := fun _ => ⟨_, hfirst.endian ▸ hplain, hholds⟩
              unit := hmet
              text := fun hpresent => absurd hpresent habsent
              block := fun hblock => absurd hblock.1 habsent
              count := fun hpresent => absurd hpresent habsent }
        leads := hleads }
  · have hknown : ∀ text ∈ m.texts.entries, text.reference.id < d₁.supply.next :=
      fun text htext => Nat.lt_of_lt_of_le (known text htext) hfirst.moves.supply_le
    -- All rows that refer to something are aligned to a slot.
    have height : alignment = Pointer.slotSize := by
      rw [Row.Fits, hpresent] at hfits
      unfold Row.alignment? at halignment?
      cases hkind : row.kind <;> simp only [hkind, reduceCtorEq, Kind.isReferenced] at hfits <;>
        rw [hkind] at halignment? <;> exact (Option.some.inj halignment?).symm
    obtain ⟨body₂, size', hsize', hstop, hwritten⟩ := writePresent_written hrow hpresent hvalid₁
      hfirst.opened (height ▸ hstart) hknown hwrite
    rw [hsize?] at hsize'
    obtain rfl := Option.some.inj hsize'
    refine ⟨body₂, hrow, hstop, hzeros.wrote hvalid₁ hfirst.opened hwritten.wrote, fun b hb => ?_,
      hwritten.after hfirst⟩
    rw [Row.plain?, hpresent] at hb
    cases hb

end Packing

end ObjectPack
