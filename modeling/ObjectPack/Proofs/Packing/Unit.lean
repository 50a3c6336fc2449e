import Mathlib.Data.List.Nodup
import Mathlib.Data.List.Perm.Subperm
import ObjectPack.Proofs.Packing.Block
import ObjectPack.Proofs.Packing.Text

/-!
# Packed data units

Packing the data unit of a row gives the draft one more data unit, whose root is the block of the row's
root object, whose blocks are all filled and refer to each other only, and which has all the texts that
they refer to (`packUnit_packed`).  Every data unit that is met is packed once, and when packing ends
none is left (`packFrom_packed`).
-/

namespace ObjectPack.Packing

open Outcome

variable {m : Model} {registry : Registry} {p p' : Packer} {i unit : Nat} {d d' : Draft}

/-- Whether a data unit of a draft holds what the rows below a root row hold. -/
def UnitPacked (m : Model) (registry : Registry) (met : List Digest) (d : Draft) (unit : Nat)
    (signature : Digest) (root : Nat) : Prop :=
  ∃ (made : List (Reference × Nat)) (used : List Nat) (reference : Reference),
    d.units[unit]? = some ⟨signature, some reference⟩ ∧ (reference, root) ∈ made ∧
    (∀ b ∈ made, BlockFilled m registry ⟨fun r i => (r, i) ∈ made, (· ∈ used), (· ∈ met)⟩ d unit
      b.1 b.2) ∧
    ∀ index ∈ used, ∃ t, m.texts.entry index = .ok t ∧ d.MarksText unit t

theorem UnitPacked.mono {met met' : List Digest} {signature : Digest} {root : Nat}
    (h : UnitPacked m registry met d unit signature root) (valid : d.Valid)
    (moves : Draft.Moves (· = d.encoding) d d') (units : d.units <+: d'.units) (more : met ⊆ met') :
    UnitPacked m registry met' d' unit signature root := by
  obtain ⟨made, used, reference, hunit, hroot, hfilled, htexts⟩ := h
  refine ⟨made, used, reference, ?_, hroot, fun b hb => ?_, fun index hindex => ?_⟩
  · obtain ⟨later, hlater⟩ := units
    rw [← hlater, List.getElem?_append_left (List.getElem?_eq_some_iff.mp hunit).1]
    exact hunit
  · exact (hfilled b hb).mono valid ⟨fun _ _ h => h, fun _ h => h, fun _ h => more h⟩ moves
  · obtain ⟨t, hentry, hmarks⟩ := htexts index hindex
    exact ⟨t, hentry, hmarks.mono valid moves.extends⟩

/-- Whether packing stands between two data units. -/
structure Between (m : Model) (p : Packer) : Prop where
  valid : p.draft.Valid
  closed : p.draft.currentUnit = none
  blocks : p.blocks = []
  texts : p.texts = []
  known : ∀ text ∈ m.texts.entries, text.reference.id < p.draft.supply.next

theorem unitIndex_fresh {signature : Digest}
    (fresh : ∀ u ∈ d.units, u.signature ≠ signature) :
    d.unitIndex signature = (d.units.length, { d with units := d.units ++ [⟨signature, none⟩] }) := by
  unfold Draft.unitIndex
  split
  · rename_i index hindex
    obtain ⟨hlt, hfinds, -⟩ := List.findIdx?_eq_some_iff_getElem.mp hindex
    exact absurd (of_decide_eq_true hfinds) (fresh _ (List.getElem_mem hlt))
  · rfl

/-- The data unit that is opened is the new one. -/
theorem openUnit_fresh {signature : Digest} (fresh : ∀ u ∈ d.units, u.signature ≠ signature)
    (h : ({ d with units := d.units ++ [⟨signature, none⟩] } : Draft).openUnit d.units.length
      = .ok d') : d.Moves (· = d.encoding) d' ∧ d'.encoding = d.encoding ∧
      d'.units = d.units ++ [⟨signature, none⟩] ∧ d'.currentUnit = some d.units.length := by
  have hopen : Draft.Move (· = d.encoding) _ d' := Draft.openUnit_move h
  obtain rfl := Draft.openUnit_eq_ok h
  exact ⟨.tail (.single (.registerUnit d signature fresh)) hopen, rfl, rfl, rfl⟩

/-- The root of the new data unit is set. -/
theorem setRoot_fresh {units : List DraftUnit} {signature : Digest} {root : Reference}
    (known : root.id < d.supply.next) (hunits : d.units = units ++ [⟨signature, none⟩])
    (current : d.currentUnit = some units.length) (h : d.setRoot root = .ok d') :
    d.Moves (· = d.encoding) d' ∧ d'.encoding = d.encoding ∧
      d'.units = units ++ [⟨signature, some root⟩] ∧ d'.currentUnit = some units.length := by
  have hmove : Draft.Move (· = d.encoding) d d' := Draft.setRoot_move h known
  obtain ⟨unit, hunit, rfl⟩ := Draft.setRoot_eq_ok h
  rw [current] at hunit
  cases hunit
  refine ⟨.single hmove, rfl, ?_, current⟩
  show d.units.modify units.length _ = _
  rw [hunits, modify_last]

/-- Packing a data unit that the draft does not have yet adds it. -/
theorem packUnit_packed (fits : ∀ i row, m.row i = .ok row → row.Fits) {row : Row}
    {signature : Digest} (hrow : m.row i = .ok row) (hvalue : row.value = .dataUnit signature)
    (object : ∀ root, row.start = some root → m.OwnsBlock root) (between : Between m p)
    (fresh : ∀ u ∈ p.draft.units, u.signature ≠ signature)
    (h : packUnit m registry p i = .ok p') : Between m p' ∧ Gathers m p p' ∧
      p.draft.Moves (· = p.draft.encoding) p'.draft ∧ ∃ root reference, row.start = some root ∧
      p'.draft.units = p.draft.units ++ [⟨signature, some reference⟩] ∧
      UnitPacked m registry p'.met p'.draft p.draft.units.length signature root := by
  have hunit? : row.value.dataUnit? = some signature := by rw [hvalue]; rfl
  unfold packUnit at h
  simp only [hrow, hunit?, unitIndex_fresh fresh, bind_eq_ok, lift_eq_ok, Except.ok.injEq,
    exists_eq_left', pure_eq_ok, Prod.exists, Model.requireStart_eq_ok hrow] at h
  obtain ⟨root, hstart, d₂, hopen, textBlock, d₃, htextBlock, rootBlock, p₄, hdefer, p₅, hroot, p₆,
    hfill, p₇, htexts, p₈, hclose, rfl⟩ := h
  obtain ⟨d₅, hrooted, rfl⟩ := onDraft_eq_ok.mp hroot
  obtain ⟨d₇, hwritten, rfl⟩ := onDraft_eq_ok.mp htexts
  obtain ⟨d₈, hclosed, rfl⟩ := onDraft_eq_ok.mp hclose
  -- Up to the root of the data unit the draft is prepared, then the blocks are filled.
  obtain ⟨hmoves₂, hencoding₂, hunits₂, hcurrent₂⟩ := openUnit_fresh fresh hopen
  have hbegins₃ := Draft.newBlock_continues htextBlock (by decide)
  obtain ⟨alignment, size, hword, hnew, hblocks₄, hknown₄, hleads₄⟩ :=
    deferBlock_eq_ok hdefer (object root hstart)
  have hbegins₄ := hbegins₃.trans (Draft.newBlock_continues hnew hword)
  obtain ⟨hmoves₅, hencoding₅, hunits₅, hcurrent₅⟩ := setRoot_fresh hknown₄
    (hbegins₄.units.trans hunits₂) (hbegins₄.currentUnit.trans hcurrent₂) hrooted
  have hencoding : d₅.encoding = p.draft.encoding :=
    hencoding₅.trans (hbegins₄.encoding.trans hencoding₂)
  have hmoves : p.draft.Moves (· = p.draft.encoding) d₅ := by
    have hrest := hbegins₄.moves.trans (hbegins₄.encoding ▸ hmoves₅)
    rw [hencoding₂] at hrest
    exact hmoves₂.trans hrest
  have hvalid₅ := between.valid.moves hmoves
  have hknown₅ : ∀ text ∈ m.texts.entries, text.reference.id < d₅.supply.next := fun text htext =>
    Nat.lt_of_lt_of_le (between.known text htext) hmoves.supply_le
  have howned : ∀ b ∈ p₄.blocks, ∃ span starts, m.OffsetsOf b.2 span starts := by
    obtain ⟨later, hlater, hlater'⟩ := hleads₄.blocks
    rw [between.blocks, List.nil_append] at hlater
    rwa [hlater]
  obtain ⟨hcontinues₆, hgathers₆, hblocks₆, made, hsubset, hfilled⟩ := fillBlocks_filled
    (p := { p₄ with draft := d₅ }) fits howned hvalid₅ hcurrent₅ hknown₅ hfill
  have hvalid₆ := hvalid₅.moves hcontinues₆.moves
  have hknown₆ : ∀ text ∈ m.texts.entries, text.reference.id < p₆.draft.supply.next :=
    fun text htext => Nat.lt_of_lt_of_le (hknown₅ text htext) hcontinues₆.moves.supply_le
  -- The texts come last, once it is known which ones have been referred to.
  obtain ⟨hcontinues₇, hmarked⟩ := TextPool.fillBlock_marked hvalid₆
    (hcontinues₆.currentUnit.trans hcurrent₅) hknown₆ hwritten
  have hlast : Draft.Move (· = d₇.encoding) d₇ d₈ := Draft.closeUnit_move hclosed
  obtain rfl := Draft.closeUnit_eq_ok hclosed
  have hcontinues := hcontinues₆.trans hcontinues₇
  have hlater : Draft.Moves (· = p₆.draft.encoding) p₆.draft { d₇ with currentUnit := none } :=
    hcontinues₇.moves.tail (hcontinues₇.encoding ▸ hlast)
  have hmoves' : p.draft.Moves (· = p.draft.encoding) { d₇ with currentUnit := none } := by
    have hrest := hcontinues₆.moves.trans (hcontinues₆.encoding ▸ hlater)
    exact hmoves.trans (hencoding ▸ hrest)
  have hunits : ({ d₇ with currentUnit := none } : Draft).units
      = p.draft.units ++ [⟨signature, some rootBlock⟩] := hcontinues.units.trans hunits₅
  have hgathers₆' : Gathers m p p₆ := by
    have hbefore : Gathers m p { p with draft := d₃ } := .of_eq (List.prefix_refl _) rfl rfl
    have hprepared : Gathers m p₄ { p₄ with draft := d₅ } := .of_eq (List.prefix_refl _) rfl rfl
    exact ((hbefore.trans hleads₄.toGathers).trans hprepared).trans hgathers₆
  refine ⟨?_, ?_, hmoves', root, rootBlock, hstart, hunits, made, p₆.texts, rootBlock, ?_, ?_,
    fun b hb => (hfilled b hb).mono hvalid₆ ⟨fun _ _ h => h, fun _ h => h, fun _ h => h⟩ hlater, ?_⟩
  · exact ⟨between.valid.moves hmoves', rfl, hblocks₆, rfl, fun text htext =>
      Nat.lt_of_lt_of_le (between.known text htext) hmoves'.supply_le⟩
  · exact ⟨between.texts ▸ List.nil_prefix, hgathers₆'.units⟩
  · rw [hunits, List.getElem?_append_right (Nat.le_refl _), Nat.sub_self]
    rfl
  · refine hsubset ?_
    show (rootBlock, root) ∈ p₄.blocks
    rw [hblocks₄]
    exact List.mem_append_right _ (List.mem_singleton_self _)
  · intro index hindex
    obtain ⟨t, hentry, hmarks⟩ := hmarked index hindex
    exact ⟨t, hentry, hmarks.mono (hvalid₆.moves hcontinues₇.moves) hlast.extends⟩

/-! ### Data units that are met -/

/-- Whether every data unit of the draft is packed, and every data unit that has been met is either in
the draft or queued. -/
structure PackedSoFar (m : Model) (registry : Registry) (queue : List (Nat × Digest)) (p : Packer) :
    Prop extends Between m p where
  packed : ∀ unit u, p.draft.units[unit]? = some u → ∃ i row root, m.row i = .ok row ∧
    row.value = .dataUnit u.signature ∧ row.start = some root ∧
    UnitPacked m registry p.met p.draft unit u.signature root
  rows : ∀ q ∈ queue, ∃ row, m.row q.1 = .ok row ∧ row.value = .dataUnit q.2
  met : p.met.Perm (p.draft.units.map (·.signature) ++ queue.map (·.2))
  once : p.met.Nodup

variable {queue later : List (Nat × Digest)}

/-- Units of one signature are met once, so there are at most as many as rows. -/
theorem PackedSoFar.length_le (h : PackedSoFar m registry queue p) :
    p.draft.units.length ≤ m.size := by
  have hsubset : p.met.map some ⊆ m.rows.toList.map (·.value.dataUnit?) := by
    intro signature hsignature
    obtain ⟨s, hs, rfl⟩ := List.mem_map.mp hsignature
    have hrow : ∃ i row, m.row i = .ok row ∧ row.value = .dataUnit s := by
      rcases List.mem_append.mp (h.met.mem_iff.mp hs) with hs | hs
      · obtain ⟨u, hu, rfl⟩ := List.mem_map.mp hs
        obtain ⟨unit, hunit⟩ := List.mem_iff_getElem?.mp hu
        obtain ⟨i, row, -, hrow, hvalue, -⟩ := h.packed unit u hunit
        exact ⟨i, row, hrow, hvalue⟩
      · obtain ⟨q, hq, rfl⟩ := List.mem_map.mp hs
        obtain ⟨row, hrow, hvalue⟩ := h.rows q hq
        exact ⟨q.1, row, hrow, hvalue⟩
    obtain ⟨i, row, hrow, hvalue⟩ := hrow
    refine List.mem_map.mpr ⟨row, ?_, by rw [hvalue]; rfl⟩
    exact Array.mem_def.mp (Array.mem_of_getElem? (indexed_eq_ok.mp hrow))
  have hnodup : (p.met.map some).Nodup := h.once.map fun _ _ h => Option.some.inj h
  have hle := (List.subperm_of_subset hnodup hsubset).length_le
  have hlength := h.met.length_eq
  rw [List.length_append, List.length_map, List.length_map] at hlength
  rw [List.length_map, List.length_map, Array.length_toList] at hle
  show _ ≤ m.rows.size
  omega

/-- Packing a queued data unit queues those that are met meanwhile. -/
theorem packUnit_packedSoFar (fits : ∀ i row, m.row i = .ok row → row.Fits)
    (objects : ∀ i row root, m.row i = .ok row → row.kind = .dataUnit → row.start = some root →
      m.OwnsBlock root) {signature : Digest}
    (before : PackedSoFar m registry ((i, signature) :: queue) p)
    (h : packUnit m registry p i = .ok p') : ∃ met : List (Nat × Digest),
      p'.units = p.units ++ met.map (·.1) ∧ PackedSoFar m registry (queue ++ met) p' ∧
      p.draft.Moves (· = p.draft.encoding) p'.draft ∧ p.met ⊆ p'.met ∧
      p'.draft.units.length = p.draft.units.length + 1 := by
  obtain ⟨row, hrow, hvalue⟩ := before.rows _ List.mem_cons_self
  have hkind := (fits i row hrow).kind_of_dataUnit hvalue
  have hnodup := before.met.nodup_iff.mp before.once
  -- Signatures are queued once, so the data unit has not been packed before.
  have hfresh : ∀ u ∈ p.draft.units, u.signature ≠ signature := by
    rintro u hu rfl
    exact (List.nodup_append.mp hnodup).2.2 _ (List.mem_map_of_mem hu) _ List.mem_cons_self rfl
  obtain ⟨hbetween, hgathers, hmoves, root, reference, hstart, hunits, hpacked⟩ :=
    packUnit_packed fits hrow hvalue (fun root => objects i row root hrow hkind) before.toBetween
      hfresh h
  obtain ⟨more, hmore, hmet, hrows, honce⟩ := hgathers.units
  refine ⟨more, hmore, ⟨hbetween, ?_, ?_, ?_, honce before.once⟩, hmoves, hgathers.met_subset, ?_⟩
  · intro unit u hunit
    rw [hunits] at hunit
    by_cases hold : unit < p.draft.units.length
    · rw [List.getElem?_append_left hold] at hunit
      obtain ⟨j, row', root', hrow', hvalue', hstart', hpacked'⟩ := before.packed unit u hunit
      exact ⟨j, row', root', hrow', hvalue', hstart', hpacked'.mono before.valid hmoves
        (hunits ▸ List.prefix_append _ _) hgathers.met_subset⟩
    · obtain rfl : unit = p.draft.units.length := by
        have hlt := (List.getElem?_eq_some_iff.mp hunit).1
        rw [List.length_append, List.length_singleton] at hlt
        omega
      rw [List.getElem?_append_right (Nat.le_refl _), Nat.sub_self] at hunit
      obtain rfl := Option.some.inj hunit
      exact ⟨i, row, root, hrow, hvalue, hstart, hpacked⟩
  · intro q hq
    rcases List.mem_append.mp hq with hq | hq
    · exact before.rows q (List.mem_cons_of_mem _ hq)
    · exact hrows q hq
  · rw [hmet, hunits, List.map_append, List.map_append, List.append_assoc]
    refine ((List.reverse_perm _).append_right _).trans (List.perm_append_comm.trans ?_)
    have hmoved := before.met.append_right (more.map (·.2))
    rwa [List.append_assoc, List.map_cons, List.cons_append] at hmoved
  · rw [hunits, List.length_append]
    rfl

/-- Packing the data units of one round queues those that are met meanwhile. -/
theorem packRound_packedSoFar (fits : ∀ i row, m.row i = .ok row → row.Fits)
    (objects : ∀ i row root, m.row i = .ok row → row.kind = .dataUnit → row.start = some root →
      m.OwnsBlock root) (before : PackedSoFar m registry (queue ++ later) p)
    (units : p.units = later.map (·.1))
    (h : (queue.map (·.1)).foldlM (packUnit m registry) p = .ok p') :
    ∃ later' : List (Nat × Digest), p'.units = later'.map (·.1) ∧
      PackedSoFar m registry later' p' ∧ p.draft.Moves (· = p.draft.encoding) p'.draft ∧
      p.met ⊆ p'.met ∧ p'.draft.units.length = p.draft.units.length + queue.length := by
  induction queue generalizing p later with
  | nil =>
    cases h
    exact ⟨later, units, before, .refl, List.Subset.refl _, rfl⟩
  | cons q queue ih =>
    rw [List.map_cons, List.foldlM_cons, bind_eq_ok] at h
    obtain ⟨p₁, hfirst, hrest⟩ := h
    have hqueued : PackedSoFar m registry ((q.1, q.2) :: (queue ++ later)) p := before
    obtain ⟨met, hmet, hpacked, hmoves, hsubset, hlength⟩ :=
      packUnit_packedSoFar fits objects hqueued hfirst
    rw [List.append_assoc] at hpacked
    rw [units, ← List.map_append] at hmet
    obtain ⟨later', hlater, hpacked', hmoves', hsubset', hlength'⟩ := ih hpacked hmet hrest
    refine ⟨later', hlater, hpacked', hmoves.trans (hmoves.encoding_eq rfl ▸ hmoves'),
      List.Subset.trans hsubset hsubset', ?_⟩
    rw [hlength', hlength, List.length_cons]
    omega

/-- Every round packs one data unit at least, unless none is left. -/
theorem packUnits_packedSoFar (fits : ∀ i row, m.row i = .ok row → row.Fits)
    (objects : ∀ i row root, m.row i = .ok row → row.kind = .dataUnit → row.start = some root →
      m.OwnsBlock root) {rounds : Nat} (before : PackedSoFar m registry queue p)
    (units : p.units = queue.map (·.1)) (h : packUnits m registry rounds p = .ok p') :
    ∃ later : List (Nat × Digest), p'.units = later.map (·.1) ∧ PackedSoFar m registry later p' ∧
      p.draft.Moves (· = p.draft.encoding) p'.draft ∧ p.met ⊆ p'.met ∧
      (later = [] ∨ p.draft.units.length + rounds ≤ p'.draft.units.length) := by
  induction rounds generalizing p queue with
  | zero =>
    cases h
    exact ⟨queue, units, before, .refl, List.Subset.refl _, Or.inr (Nat.le_refl _)⟩
  | succ rounds ih =>
    unfold packUnits at h
    split at h
    · rename_i hnone
      cases h
      refine ⟨queue, units, before, .refl, List.Subset.refl _, Or.inl ?_⟩
      rw [hnone] at units
      exact List.map_eq_nil_iff.mp units.symm
    · rename_i hsome
      obtain ⟨p₁, hround, hrest⟩ := bind_eq_ok.mp h
      rw [units] at hround hsome
      have hstart : PackedSoFar m registry (queue ++ []) { p with units := [] } := by
        rw [List.append_nil]
        exact ⟨⟨before.valid, before.closed, before.blocks, before.texts, before.known⟩,
          before.packed, before.rows, before.met, before.once⟩
      obtain ⟨later, hlater, hpacked, hmoves, hsubset, hlength⟩ :=
        packRound_packedSoFar fits objects hstart rfl hround
      obtain ⟨last, hlast, hpacked', hmoves', hsubset', hdone⟩ := ih hpacked hlater hrest
      refine ⟨last, hlast, hpacked', hmoves.trans (hmoves.encoding_eq rfl ▸ hmoves'),
        List.Subset.trans hsubset hsubset', hdone.imp_right fun hle => ?_⟩
      have hlonger : p₁.draft.units.length = p.draft.units.length + queue.length := hlength
      -- A round that is not the last one has something to pack.
      have hpos : 0 < queue.length := List.length_pos_iff.mpr fun hnil => by
        rw [hnil] at hsome
        exact hsome rfl
      omega

/-! ### Whole models -/

/-- Whether a draft has a packed data unit for each of some signatures, and no other data units. -/
structure ModelPacked (m : Model) (registry : Registry) (met : List Digest) (d : Draft) : Prop where
  valid : d.Valid
  packed : ∀ unit u, d.units[unit]? = some u → ∃ i row root, m.row i = .ok row ∧
    row.value = .dataUnit u.signature ∧ row.start = some root ∧
    UnitPacked m registry met d unit u.signature root
  complete : ∀ signature ∈ met, ∃ u ∈ d.units, u.signature = signature

/-- When no data unit is queued, all that have been met are packed. -/
theorem PackedSoFar.modelPacked (h : PackedSoFar m registry [] p) : ModelPacked m registry p.met p.draft where
  valid := h.valid
  packed := h.packed
  complete s hs := by
    have hmem := h.met.mem_iff.mp hs
    rw [List.map_nil, List.append_nil] at hmem
    exact List.mem_map.mp hmem

variable (registry) in
/-- Packing starts from a blank draft and the data unit of a row. -/
theorem packedSoFar_blank (platform : Platform) (encoding : PointerEncoding)
    (known : ∀ text ∈ m.texts.entries, text.reference.id < m.supply.next) {row : Row} {signature : Digest}
    (hrow : m.row i = .ok row) (value : row.value = .dataUnit signature) :
    PackedSoFar m registry [(i, signature)] ⟨.blank platform encoding m.supply, [i], [signature], [], []⟩ where
  valid := Draft.blank_valid platform encoding m.supply
  closed := rfl
  blocks := rfl
  texts := rfl
  known := known
  packed unit u hu := by cases hu
  rows q hq := List.mem_singleton.mp hq ▸ ⟨row, hrow, value⟩
  met := .refl _
  once := List.nodup_singleton signature

/-- When there are more rounds than rows, no data unit is left. -/
theorem packUnits_finished (fits : ∀ i row, m.row i = .ok row → row.Fits)
    (objects : ∀ i row root, m.row i = .ok row → row.kind = .dataUnit → row.start = some root →
      m.OwnsBlock root) {platform : Platform} {encoding : PointerEncoding}
    (known : ∀ text ∈ m.texts.entries, text.reference.id < m.supply.next) {row : Row} {signature : Digest}
    (hrow : m.row i = .ok row) (value : row.value = .dataUnit signature) {rounds : Nat} (enough : m.size < rounds)
    (h : packUnits m registry rounds ⟨.blank platform encoding m.supply, [i], [signature], [], []⟩ = .ok p') :
    p'.units = [] ∧ PackedSoFar m registry [] p' ∧ signature ∈ p'.met ∧
      Draft.Moves (· = encoding) (.blank platform encoding m.supply) p'.draft := by
  have hstart := packedSoFar_blank registry platform encoding known hrow value
  obtain ⟨later, hlater, hpacked, hmoves, hsubset, hdone⟩ := packUnits_packedSoFar fits objects hstart rfl h
  have hlength := hpacked.length_le
  -- Every round packs a data unit of its own.
  obtain rfl : later = [] := by
    refine hdone.resolve_right fun hle => ?_
    have hempty : (Draft.blank platform encoding m.supply).units.length = 0 := rfl
    omega
  exact ⟨hlater, hpacked, hsubset (List.mem_singleton_self _), hmoves⟩

/-- Packing starts with the data unit of a row. -/
theorem packFrom_start (fits : ∀ i row, m.row i = .ok row → row.Fits) {platform : Platform}
    {encoding : PointerEncoding} (h : packFrom m registry (.blank platform encoding m.supply) i = .ok d) :
    ∃ row signature p', m.row i = .ok row ∧ row.value = .dataUnit signature ∧
      packUnits m registry (m.size + 1) ⟨.blank platform encoding m.supply, [i], [signature], [], []⟩ = .ok p' ∧
      p'.draft = d := by
  unfold packFrom at h
  simp only [bind_eq_ok, lift_eq_ok, refuse_if_eq_ok, pure_eq_ok] at h
  obtain ⟨row, hrow, hunit, p', hpack, rfl⟩ := h
  have hfits := fits i row hrow
  -- The row is checked to be that of a data unit that is there.
  have hvalue : ∃ signature, row.value = .dataUnit signature := by
    have hkind : row.kind = .dataUnit := by
      by_contra hne
      exact hunit (Or.inl hne)
    have hnull : row.value.isNull ≠ true := fun hnull => hunit (Or.inr hnull)
    rw [Row.Fits] at hfits
    cases hvalue : row.value <;> simp only [hvalue, hkind] at hfits
    case null => exact absurd (by rw [hvalue]; rfl) hnull
    case dataUnit signature => exact ⟨signature, rfl⟩
    case scalar s => cases hformat : s.format <;> rw [hformat] at hfits <;> cases hfits
    all_goals cases hfits
  obtain ⟨signature, hvalue⟩ := hvalue
  rw [hvalue] at hpack
  exact ⟨row, signature, p', hrow, hvalue, hpack, rfl⟩

/-- What packing from the row of a data unit leaves behind. -/
theorem packFrom_packed (fits : ∀ i row, m.row i = .ok row → row.Fits)
    (objects : ∀ i row root, m.row i = .ok row → row.kind = .dataUnit → row.start = some root →
      m.OwnsBlock root) {platform : Platform} {encoding : PointerEncoding}
    (known : ∀ text ∈ m.texts.entries, text.reference.id < m.supply.next)
    (h : packFrom m registry (.blank platform encoding m.supply) i = .ok d) : ∃ row signature met,
      m.row i = .ok row ∧ row.value = .dataUnit signature ∧ signature ∈ met ∧
      ModelPacked m registry met d ∧
      Draft.Moves (· = encoding) (.blank platform encoding m.supply) d := by
  obtain ⟨row, signature, p', hrow, hvalue, hpack, rfl⟩ := packFrom_start fits h
  obtain ⟨-, hpacked, hmet, hmoves⟩ := packUnits_finished fits objects known hrow hvalue (Nat.lt_succ_self _) hpack
  exact ⟨row, signature, p'.met, hrow, hvalue, hmet, hpacked.modelPacked, hmoves⟩

end ObjectPack.Packing
