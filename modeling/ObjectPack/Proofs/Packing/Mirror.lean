import ObjectPack.Packing
import ObjectPack.Proofs.Packing.Pool
import ObjectPack.Proofs.Packing.Row

/-!
# Packing models that mirror each other

Where the rows of a model stand, and what the references of its texts are called, is no matter of what is
packed.  Two models mirror each other if rows, blocks and texts of one of them correspond to such of the
other that hold the same (`Model.Mirrors`).  Packing the one does step by step what packing the other does
(`Packing.packFrom_mirrors`): corresponding blocks are put off in the same order, data units are met in the
same order, and the drafts differ in names only.
-/

namespace ObjectPack

open Outcome

/-! ### Correspondence -/

/-- Which rows, which blocks of rows and which texts of two models correspond, and how references are
renamed; those that are still to be taken are numbered higher by a constant. -/
structure Matching where
  names : Reference → Reference
  later : Nat
  rows : Nat → Nat → Prop
  blocks : Nat → Nat → Prop
  texts : Nat → Nat → Prop

/-- Whether two rows are written alike, but for what they refer to. -/
structure Row.WrittenAlike (r r' : Row) : Prop where
  kind : r'.kind = r.kind
  count : r'.count = r.count
  value : r'.value = r.value

/-- Whether two ranges hold corresponding indices in the same order. -/
structure Span.Along (P : Nat → Nat → Prop) (s s' : Span) : Prop where
  length : s'.length = s.length
  pairs : ∀ k < s.length, P (s.start + k) (s'.start + k)

/-- Whether what corresponds in two models holds the same. -/
structure Model.Mirrors (c : Matching) (m m' : Model) : Prop where
  row {i j : Nat} : c.rows i j → Follows Row.WrittenAlike (m.row i) (m'.row j)
  slot {i j : Nat} : c.blocks i j → c.rows i j
  block {i j : Nat} {r : Row} : c.rows i j → m.row i = .ok r → r.HasBlock → c.blocks i j
  members {i j : Nat} {r r' : Row} : c.blocks i j → m.row i = .ok r → m'.row j = .ok r' →
    Follows (Span.Along c.rows) r.members r'.members
  elements {i j : Nat} {r r' : Row} : c.blocks i j → m.row i = .ok r → m'.row j = .ok r' →
    Follows (fun e e' => Option.Rel c.rows e.1 e'.1 ∧ Option.Rel c.rows e.2 e'.2) r.firstElements
      r'.firstElements
  text {i j : Nat} {r r' : Row} : c.rows i j → m.row i = .ok r → m'.row j = .ok r' → r.kind = .string →
    r.value = .present → ∀ index, r.start = some index → ∃ index', r'.start = some index' ∧ c.texts index index'
  root {i j : Nat} {r r' : Row} {s : Digest} : c.rows i j → m.row i = .ok r → m'.row j = .ok r' →
    r.value = .dataUnit s → ∀ root, r.start = some root → ∃ root', r'.start = some root' ∧ c.blocks root root'
  entry {a b : Nat} : c.texts a b → TextPool.Counterparts c.names m.texts m'.texts a b
  /-- Corresponding texts are written in the same order. -/
  order {l l' : List Nat} : List.Forall₂ c.texts l l' →
    Follows (List.Forall₂ c.texts) (m.texts.writingOrder l) (m'.texts.writingOrder l')

/-- Whether what a model packs into a draft in as many rounds as another one has rows, it packs in as many as it
has rows itself. -/
structure Model.RoundsSuffice (c : Matching) (registry : Registry) (m m' : Model) (d d' : Draft) : Prop where
  blocks {p q : Packing.Packer} : (∀ e ∈ p.blocks, ∃ i, c.blocks i e.2) →
    Packing.fillBlocks m' registry (m.size + 1) p = .ok q → Packing.fillBlocks m' registry (m'.size + 1) p = .ok q
  units {i j : Nat} {r r' : Row} {s : Digest} {q q' : Packing.Packer} : m.row i = .ok r →
    r.value = .dataUnit s → m'.row j = .ok r' → r'.value = .dataUnit s →
    Packing.packUnits m registry (m.size + 1) (Packing.meet ⟨d, [], [], [], []⟩ i s) = .ok q →
    Packing.packUnits m' registry (m.size + 1) (Packing.meet ⟨d', [], [], [], []⟩ j s) = .ok q' →
    q'.units.length = q.units.length →
    Packing.packUnits m' registry (m'.size + 1) (Packing.meet ⟨d', [], [], [], []⟩ j s) = .ok q'

theorem Span.Along.foldM {α β ε ε' : Type} {P : Nat → Nat → Prop} {R : α → β → Prop} {s s' : Span}
    {f : α → Nat → Except ε α} {g : β → Nat → Except ε' β} (h : s.Along P s')
    (step : ∀ i j, P i j → ∀ a b, R a b → Follows R (f a i) (g b j)) {a : α} {b : β} (start : R a b) :
    Follows R (s.foldM f a) (s'.foldM g b) := by
  unfold Span.foldM
  rw [h.length]
  exact .foldFrom_pairs (fun k hk a b hab => step _ _ (h.pairs k hk) a b hab) start

/-! ### Layout -/

theorem Row.WrittenAlike.alignment? {r r' : Row} (h : r.WrittenAlike r') : r'.alignment? = r.alignment? := by
  unfold Row.alignment?
  rw [h.kind, h.value]

theorem Row.WrittenAlike.size? {r r' : Row} (h : r.WrittenAlike r') : r'.size? = r.size? := by
  unfold Row.size?
  rw [h.kind, h.value]

namespace Model.Mirrors

variable {c : Matching} {m m' : Model} {i j : Nat}

theorem alignment (h : m.Mirrors c m') (pair : c.rows i j) : Follows Eq (m.alignment i) (m'.alignment j) := by
  refine (h.row pair).bind fun r r' alike => ?_
  rw [alike.alignment?]
  cases r.alignment? with
  | none => exact .error _ _
  | some alignment => exact .ok rfl

theorem byteSize (h : m.Mirrors c m') (pair : c.rows i j) : Follows Eq (m.byteSize i) (m'.byteSize j) := by
  refine (h.row pair).bind fun r r' alike => ?_
  rw [alike.size?]
  cases r.size? with
  | none => exact .error _ _
  | some size => exact .ok rfl

theorem greatestAlignment (h : m.Mirrors c m') {s s' : Span} (along : s.Along c.rows s') :
    Follows Eq (m.greatestAlignment s) (m'.greatestAlignment s') := by
  refine along.foldM (fun i j pair a b hab => ?_) rfl
  subst hab
  refine (h.alignment pair).map fun n n' hn => ?_
  rw [hn]

/-- Blocks that correspond are aligned alike. -/
theorem blockAlignment (h : m.Mirrors c m') (pair : c.blocks i j) :
    Follows Eq (m.blockAlignment i) (m'.blockAlignment j) := by
  unfold Model.blockAlignment
  refine (h.row (h.slot pair)).results.bind ?_
  rintro r r' ⟨alike, hrow, hrow'⟩
  rw [alike.kind]
  cases r.kind with
  | struct => exact h.alignment (h.slot pair)
  | object =>
    refine (h.members pair hrow hrow').bind fun s s' along => ?_
    rw [along.length]
    split
    · exact .ok rfl
    · exact h.greatestAlignment along
  | array | dictionary =>
    refine (h.elements pair hrow hrow').bind ?_
    rintro ⟨_, _⟩ ⟨_, _⟩ ⟨hfirst, hsecond⟩
    cases hfirst with
    | none => cases hsecond <;> exact .ok rfl
    | some hfirst =>
      cases hsecond with
      | none => exact h.alignment hfirst
      | some hsecond =>
        refine (h.alignment hfirst).bind ?_
        rintro a _ rfl
        refine (h.alignment hsecond).bind ?_
        rintro b _ rfl
        exact .ok rfl
  | _ => exact .ok rfl

theorem placeRow (h : m.Mirrors c m') (pair : c.rows i j) (offset : Nat) :
    Follows Eq (m.placeRow offset i) (m'.placeRow offset j) := by
  unfold Model.placeRow
  refine (h.alignment pair).bind ?_
  rintro alignment _ rfl
  refine .bind_same fun start _ => ?_
  refine (h.byteSize pair).bind ?_
  rintro size _ rfl
  exact .rfl

theorem extent (h : m.Mirrors c m') {s s' : Span} (along : s.Along c.rows s') :
    Follows Eq (m.extent s) (m'.extent s') := by
  refine along.foldM (fun i j pair a b hab => ?_) rfl
  subst hab
  refine (h.placeRow pair a).map fun place place' hplace => ?_
  rw [hplace]

/-- Blocks that correspond are as large as each other. -/
theorem blockSize (h : m.Mirrors c m') (pair : c.blocks i j) : Follows Eq (m.blockSize i) (m'.blockSize j) := by
  unfold Model.blockSize
  refine (h.row (h.slot pair)).results.bind ?_
  rintro r r' ⟨alike, hrow, hrow'⟩
  rw [alike.kind, alike.count]
  cases r.kind with
  | object | array | dictionary =>
    refine (h.members pair hrow hrow').bind fun s s' along => ?_
    refine (h.extent along).bind ?_
    rintro extent _ rfl
    refine (h.blockAlignment pair).bind ?_
    rintro alignment _ rfl
    exact .rfl
  | string => exact .rfl
  | _ => exact h.byteSize (h.slot pair)

end Model.Mirrors

namespace Packing

variable {c : Matching} {m m' : Model} {registry : Registry} {p p' : Packer} {i j : Nat}
  {d d' : Draft}

/-! ### Packers -/

/-- Whether two packers have come equally far. -/
structure Packer.Mirrors (c : Matching) (p p' : Packer) : Prop where
  draft : Draft.Renamed c.names c.later p.draft p'.draft
  units : List.Forall₂ c.rows p.units p'.units
  met : p'.met = p.met
  blocks : List.Forall₂ (fun e e' => e'.1 = c.names e.1 ∧ c.blocks e.2 e'.2) p.blocks p'.blocks
  texts : List.Forall₂ c.texts p.texts p'.texts

theorem Packer.Mirrors.onDraft (h : p.Mirrors c p') {f g : Draft → Except Fault Draft}
    (step : Follows (Draft.Renamed c.names c.later) (f p.draft) (g p'.draft)) :
    Follows (Packer.Mirrors c) (p.onDraft f) (p'.onDraft g) :=
  step.bind fun _ _ draft => .ok ⟨draft, h.units, h.met, h.blocks, h.texts⟩

theorem deferBlock_mirrors (model : m.Mirrors c m') (h : p.Mirrors c p') (pair : c.blocks i j) :
    Follows (fun r r' => r'.1 = c.names r.1 ∧ r.2.Mirrors c r'.2) (deferBlock m p i) (deferBlock m' p' j) := by
  unfold deferBlock
  refine (model.blockAlignment pair).bind ?_
  rintro alignment _ rfl
  refine (model.blockSize pair).bind ?_
  rintro size _ rfl
  refine (h.draft.newBlock _ _).bind ?_
  rintro ⟨reference, d⟩ ⟨_, d'⟩ ⟨rfl, hd⟩
  exact .ok ⟨rfl, hd, h.units, h.met, List.rel_append h.blocks (.cons ⟨rfl, pair⟩ .nil), h.texts⟩

theorem meet_mirrors (h : p.Mirrors c p') (pair : c.rows i j) (signature : Digest) :
    (meet p i signature).Mirrors c (meet p' j signature) := by
  unfold meet
  rw [h.met]
  split
  · exact h
  · exact ⟨h.draft, List.rel_append h.units (.cons pair .nil), rfl, h.blocks, h.texts⟩

/-! ### Rows -/

theorem referToBlock_mirrors (model : m.Mirrors c m') (h : p.Mirrors c p') (pair : c.blocks i j) :
    Follows (Packer.Mirrors c) (referToBlock m p i) (referToBlock m' p' j) := by
  refine (deferBlock_mirrors model h pair).bind ?_
  rintro ⟨reference, p⟩ ⟨_, p'⟩ ⟨rfl, h⟩
  exact h.onDraft (h.draft.writeReference reference)

theorem requireStart_follows {P : Nat → Nat → Prop} {r r' : Row} (hrow : m.row i = .ok r)
    (hrow' : m'.row j = .ok r') (starts : ∀ start, r.start = some start → ∃ start', r'.start = some start' ∧
      P start start') : Follows P (m.requireStart i) (m'.requireStart j) := by
  intro start hstart
  obtain ⟨start', hstart', hpair⟩ := starts start ((Model.requireStart_eq_ok hrow).mp hstart)
  exact ⟨start', (Model.requireStart_eq_ok hrow').mpr hstart', hpair⟩

theorem writePresent_mirrors (model : m.Mirrors c m') (h : p.Mirrors c p') (pair : c.rows i j) {r r' : Row}
    (hrow : m.row i = .ok r) (hrow' : m'.row j = .ok r') (present : r.value = .present) :
    Follows (Packer.Mirrors c) (writePresent m p i) (writePresent m' p' j) := by
  unfold writePresent
  refine (model.row pair).results.bind ?_
  rintro s s' ⟨alike, hs, hs'⟩
  obtain rfl := Except.ok.inj (hrow.symm.trans hs)
  obtain rfl := Except.ok.inj (hrow'.symm.trans hs')
  rw [alike.kind, alike.count]
  cases hkind : r.kind with
  | string =>
    refine (requireStart_follows hrow hrow' (model.text pair hrow hrow' hkind present)).bind fun a b htext => ?_
    refine (model.entry htext).bind ?_
    rintro text _ rfl
    refine (h.onDraft (h.draft.writeText text.reference _ _)).bind fun p p' h => ?_
    exact .ok ⟨h.draft, h.units, h.met, h.blocks, List.rel_append h.texts (.cons htext .nil)⟩
  | object => exact referToBlock_mirrors model h (model.block pair hrow ⟨present, Or.inl hkind⟩)
  | array | dictionary =>
    dsimp only
    split
    · exact (h.onDraft h.draft.writeNull).bind fun p p' h => h.onDraft (h.draft.performAll _)
    · rename_i hcount
      have hblock := model.block pair hrow ⟨present, Or.inr ⟨by simp [hkind], hcount⟩⟩
      exact (referToBlock_mirrors model h hblock).bind fun p p' h => h.onDraft (h.draft.performAll _)
  | _ => exact .error _ _

theorem writeAbsent_mirrors (model : m.Mirrors c m') (h : p.Mirrors c p') (pair : c.rows i j) :
    Follows (Packer.Mirrors c) (writeAbsent m p i) (writeAbsent m' p' j) := by
  unfold writeAbsent
  refine (model.row pair).bind fun r r' alike => ?_
  rw [alike.kind]
  cases r.kind with
  | string => exact h.onDraft (h.draft.performAll _)
  | object => exact h.onDraft h.draft.writeNull
  | dataUnit => exact h.onDraft (h.draft.writeLocation _ _)
  | _ => exact .error _ _

theorem writeStruct_mirrors (h : p.Mirrors c p') (value : CustomStruct) :
    Follows (Packer.Mirrors c) (writeStruct p value) (writeStruct p' value) := by
  unfold writeStruct
  refine h.draft.position.lift.bind ?_
  rintro before _ rfl
  refine (h.onDraft (h.draft.performAll _)).lift.bind fun p p' h => ?_
  refine h.draft.position.lift.bind ?_
  rintro after _ rfl
  exact .refuse Iff.rfl fun _ => .ok h

/-- Corresponding rows are written alike. -/
theorem writeRow_mirrors (model : m.Mirrors c m') (h : p.Mirrors c p') (pair : c.rows i j) :
    Follows (Packer.Mirrors c) (writeRow m registry p i) (writeRow m' registry p' j) := by
  unfold writeRow
  refine (model.alignment pair).lift.bind ?_
  rintro alignment _ rfl
  refine (h.onDraft (h.draft.align _)).lift.bind fun p p' h => ?_
  refine (model.row pair).results.lift.bind ?_
  rintro r r' ⟨alike, hrow, hrow'⟩
  rw [alike.value]
  cases hvalue : r.value with
  | bool value => exact (h.onDraft (h.draft.perform _)).lift
  | bitSet word => exact (h.onDraft (h.draft.write _)).lift
  | scalar value => exact (h.onDraft (h.draft.write _)).lift
  | enum enumeration value => exact (h.onDraft (h.draft.write _)).lift
  | struct value => exact writeStruct_mirrors h value
  | dataUnit signature =>
    exact (h.onDraft (h.draft.writeLocation _ _)).lift.bind fun _ _ h => .ok (meet_mirrors h pair signature)
  | present => exact (writePresent_mirrors model h pair hrow hrow' hvalue).lift
  | null => exact (writeAbsent_mirrors model h pair).lift

/-! ### Blocks and data units -/

theorem fillBlock_mirrors (model : m.Mirrors c m') (h : p.Mirrors c p') (reference : Reference)
    (pair : c.blocks i j) : Follows (Packer.Mirrors c) (fillBlock m registry p (reference, i))
      (fillBlock m' registry p' (c.names reference, j)) := by
  unfold fillBlock
  refine (h.onDraft (h.draft.openBlock reference)).lift.bind fun p p' h => ?_
  have hmembers : Follows (Span.Along c.rows) (m.members i) (m'.members j) := by
    refine (model.row (model.slot pair)).results.bind ?_
    rintro r r' ⟨-, hrow, hrow'⟩
    exact model.members pair hrow hrow'
  refine hmembers.lift.bind fun members members' along => ?_
  refine (along.foldM (fun _ _ pair _ _ h => writeRow_mirrors model h pair) h).bind fun _ _ h => ?_
  exact (h.onDraft h.draft.closeBlock).lift

theorem fillBlocks_mirrors (model : m.Mirrors c m') (h : p.Mirrors c p') (rounds : Nat) :
    Follows (Packer.Mirrors c) (fillBlocks m registry rounds p) (fillBlocks m' registry rounds p') := by
  induction rounds generalizing p p' with
  | zero =>
    have hblocks := h.blocks
    unfold fillBlocks
    revert hblocks
    cases p.blocks with
    | nil =>
      intro hblocks
      rw [List.forall₂_nil_left_iff.mp hblocks]
      exact .ok h
    | cons block rest => exact fun _ => .error _ _
  | succ rounds ih =>
    have hblocks := h.blocks
    unfold fillBlocks
    generalize p.blocks = blocks at hblocks
    generalize p'.blocks = blocks' at hblocks
    cases hblocks with
    | nil => exact .ok h
    | cons hfirst hrest =>
      have hstart : Packer.Mirrors c { p with blocks := [] } { p' with blocks := [] } :=
        ⟨h.draft, h.units, h.met, .nil, h.texts⟩
      have hround := Follows.foldlM_pairs (R := Packer.Mirrors c) (f := fillBlock m registry)
        (g := fillBlock m' registry) (fun p p' ⟨reference, i⟩ e' ⟨hname, hpair⟩ h => by
          rw [← Prod.mk.eta (p := e'), hname]
          exact fillBlock_mirrors model h reference hpair) (List.Forall₂.cons hfirst hrest) hstart
      exact hround.bind fun _ _ h => ih h

theorem packUnit_mirrors (model : m.Mirrors c m') (suffice : m.RoundsSuffice c registry m' d d') (h : p.Mirrors c p')
    (pair : c.rows i j) : Follows (Packer.Mirrors c) (packUnit m registry p i) (packUnit m' registry p' j) := by
  unfold packUnit
  refine (model.row pair).results.lift.bind ?_
  rintro r r' ⟨alike, hrow, hrow'⟩
  rw [alike.value]
  cases hvalue : r.value with
  | dataUnit signature =>
    refine (requireStart_follows hrow hrow' (model.root pair hrow hrow' hvalue)).lift.bind fun root root' hroot => ?_
    obtain ⟨hunit, hregistered⟩ := h.draft.unitIndex signature
    dsimp only
    rw [hunit]
    refine (hregistered.openUnit _).lift.bind fun d d' hd => ?_
    refine (hd.newBlock 1 none).lift.bind ?_
    rintro ⟨textBlock, d⟩ ⟨_, d'⟩ ⟨rfl, hd⟩
    have hopened : Packer.Mirrors c { p with draft := d } { p' with draft := d' } :=
      ⟨hd, h.units, h.met, h.blocks, h.texts⟩
    refine (deferBlock_mirrors model hopened hroot).lift.bind ?_
    rintro ⟨rootBlock, p⟩ ⟨_, p'⟩ ⟨rfl, h⟩
    refine (h.onDraft (h.draft.setRoot rootBlock)).lift.bind fun p p' h => ?_
    -- The rounds are counted by the size of the model, and the second model may be of another size.
    have hfill : Follows (Packer.Mirrors c) (fillBlocks m registry (m.size + 1) p)
        (fillBlocks m' registry (m'.size + 1) p') := by
      intro q hq
      obtain ⟨q', hq', hmirrors⟩ := fillBlocks_mirrors model h (m.size + 1) q hq
      refine ⟨q', suffice.blocks (fun e he => ?_) hq', hmirrors⟩
      obtain ⟨k, hk, rfl⟩ := List.getElem_of_mem he
      have hlength := h.blocks.length_eq
      exact ⟨_, (h.blocks.get (i := k) (by omega) hk).2⟩
    refine hfill.bind fun p p' h => ?_
    refine Follows.bind (R := Packer.Mirrors c) (Follows.lift (h.onDraft ?_)) fun p p' h => ?_
    · refine TextPool.fillBlock_counterparts h.draft textBlock ?_
      exact (model.order h.texts).mono fun _ _ pairs => pairs.imp fun _ _ => model.entry
    · refine (h.onDraft h.draft.closeUnit).lift.bind fun p p' h => ?_
      exact .ok ⟨h.draft, h.units, h.met, h.blocks, .nil⟩
  | _ => exact .error _ _

theorem packUnits_mirrors (model : m.Mirrors c m') (suffice : m.RoundsSuffice c registry m' d d')
    (h : p.Mirrors c p') (rounds : Nat) :
    Follows (Packer.Mirrors c) (packUnits m registry rounds p) (packUnits m' registry rounds p') := by
  induction rounds generalizing p p' with
  | zero => exact .ok h
  | succ rounds ih =>
    have hunits := h.units
    unfold packUnits
    generalize p.units = units at hunits
    generalize p'.units = units' at hunits
    cases hunits with
    | nil => exact .ok h
    | cons hfirst hrest =>
      have hstart : Packer.Mirrors c { p with units := [] } { p' with units := [] } :=
        ⟨h.draft, .nil, h.met, h.blocks, h.texts⟩
      have hround := Follows.foldlM_pairs (P := c.rows)
        (fun _ _ _ _ pair h => packUnit_mirrors model suffice h pair)
        (List.Forall₂.cons hfirst hrest) hstart
      exact hround.bind fun _ _ h => ih h

/-- Packing models that mirror each other gives drafts that differ in names only. -/
theorem packFrom_mirrors (model : m.Mirrors c m') (suffice : m.RoundsSuffice c registry m' d d')
    (h : Draft.Renamed c.names c.later d d') (pair : c.rows i j) :
    Follows (Draft.Renamed c.names c.later) (packFrom m registry d i) (packFrom m' registry d' j) := by
  unfold packFrom
  refine (model.row pair).results.lift.bind ?_
  rintro r r' ⟨alike, hrow, hrow'⟩
  rw [alike.kind, alike.value]
  refine .refuse Iff.rfl fun _ => ?_
  have hstart : Packer.Mirrors c ⟨d, [], [], [], []⟩ ⟨d', [], [], [], []⟩ := ⟨h, .nil, rfl, .nil, .nil⟩
  dsimp only
  cases hvalue : r.value with
  | dataUnit signature =>
    refine Follows.bind (R := Packer.Mirrors c) (fun q hq => ?_) fun _ _ h => .ok h.draft
    obtain ⟨q', hq', hmirrors⟩ :=
      packUnits_mirrors model suffice (meet_mirrors hstart pair signature) (m.size + 1) q hq
    exact ⟨q', suffice.units hrow hvalue hrow' (alike.value.trans hvalue) hq hq' hmirrors.units.length_eq.symm,
      hmirrors⟩
  | _ => exact .ok h

end Packing

end ObjectPack
