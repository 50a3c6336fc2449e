import Mathlib.Data.List.Infix
import ObjectPack.Proofs.Model.Units
import ObjectPack.Proofs.Packing.Exact
import ObjectPack.Proofs.Packing.Read

/-!
# Every data unit once

Packing meets data units while it packs others, and packs those of one signature once
(`Packing.packFrom_packedOnce`).  None is missed: a data unit is met when the block that owns its row is
filled, and this block is filled in its turn because whatever refers to it is
(`Packing.ModelPacked.met_of_reaches`).  Only the blocks of collections whose count is lost are not.  So every
object that is there has a block, too (`Packing.ModelExact.made_of_object`).
-/

namespace ObjectPack

open Outcome

namespace Draft

variable {allowed : PointerEncoding → Prop} {d d' : Draft}

/-- Data units keep their signatures and their order. -/
theorem Move.signatures (h : Move allowed d d') :
    d.units.map (·.signature) <+: d'.units.map (·.signature) := by
  cases h with
  | registerUnit signature _ =>
    rw [List.map_append]
    exact List.prefix_append _ _
  | setRoot unit reference _ _ =>
    have hsame : (d.units.modify unit ({ · with root := some reference })).map (·.signature)
        = d.units.map (·.signature) := by
      refine List.ext_getElem? fun i => ?_
      rw [List.getElem?_map, List.getElem?_map, List.getElem?_modify]
      cases d.units[i]? with
      | none => rfl
      | some u => by_cases hi : unit = i <;> simp [hi]
    exact hsame ▸ List.prefix_refl _
  | _ => exact List.prefix_refl _

theorem Moves.signatures (h : Moves allowed d d') :
    d.units.map (·.signature) <+: d'.units.map (·.signature) := by
  induction h with
  | refl => exact List.prefix_refl _
  | tail _ last ih => exact ih.trans last.signatures

end Draft

namespace Packing

variable {m : Model} {registry : Registry} {top i : Nat} {d : Draft} {met : List Digest}

/-! ### None is missed -/

/-- Whether the block of a row is filled in a data unit, and with it the blocks that it refers to. -/
def Written (m : Model) (registry : Registry) (met : List Digest) (d : Draft) (i : Nat) : Prop :=
  ∃ (unit : Nat) (made : List (Reference × Nat)) (used : List Nat) (reference : Reference),
    (reference, i) ∈ made ∧ ∀ b ∈ made, BlockFilled m registry
      ⟨fun r i => (r, i) ∈ made, (· ∈ used), (· ∈ met)⟩ d unit b.1 b.2

/-- The row of a block that is filled has its own block filled, or its data unit met. -/
theorem Written.owned {owner row : Row} {j : Nat} (h : Written m registry met d i)
    (howner : m.row i = .ok owner) (owns : owner.Owns j) (hrow : m.row j = .ok row) :
    (row.HasBlock → Written m registry met d j) ∧ ∀ s, row.value = .dataUnit s → s ∈ met := by
  obtain ⟨unit, made, used, reference, hmem, hfilled⟩ := h
  obtain ⟨block, -, -, body, -, -, span, starts, ⟨hmembers, hlength, -⟩, hpacked⟩ := hfilled _ hmem
  have hspan : owner.members = .ok span := (Model.members_eq howner).symm.trans hmembers
  obtain ⟨k, hk, rfl⟩ := (Row.owns_iff hspan j).mp owns
  obtain ⟨row', hrow', hrowPacked⟩ := hpacked k _ (List.getElem?_eq_getElem (hlength ▸ hk))
  obtain rfl := Except.ok.inj (hrow.symm.trans hrow')
  refine ⟨fun hblock => ?_, hrowPacked.unit⟩
  obtain ⟨target, htarget, -⟩ := hrowPacked.block hblock
  exact ⟨unit, made, used, target, htarget, hfilled⟩

/-- Whatever belongs to a packed data unit is written, and its data units are met. -/
theorem ModelPacked.met_of_reaches (packed : ModelPacked m registry met d) (wellFormed : m.WellFormed top)
    (topMet : ∃ row s, m.row top = .ok row ∧ row.value = .dataUnit s ∧ s ∈ met)
    (counts : ¬ LosesCount m) (h : m.Reaches top i) : ∀ row, m.row i = .ok row →
      (row.HasBlock → Written m registry met d i) ∧ ∀ s, row.value = .dataUnit s → s ∈ met := by
  refine blocks_of_reaches wellFormed counts topMet
    (fun i j owner row hwritten howner howns hrow => hwritten.owned howner howns hrow) ?_ h
  intro s hs
  obtain ⟨u, hu, rfl⟩ := packed.complete s hs
  obtain ⟨unit, hunit⟩ := List.mem_iff_getElem?.mp hu
  obtain ⟨k, row, root, hrow, hvalue, hstart, made, used, reference, -, hroot, hfilled, -⟩ :=
    packed.packed unit u hunit
  exact ⟨root, ⟨k, row, hrow, hvalue, hstart⟩, unit, made, used, reference, hroot, hfilled⟩

/-! ### Each is packed once -/

/-- The first data unit of a draft is that of the row from which packing starts. -/
theorem packUnits_first (fits : ∀ i row, m.row i = .ok row → row.Fits)
    (objects : ∀ i row root, m.row i = .ok row → row.kind = .dataUnit → row.start = some root →
      m.OwnsBlock root) {platform : Platform} {encoding : PointerEncoding}
    (known : ∀ text ∈ m.texts.entries, text.reference.id < m.supply.next) {row : Row} {signature : Digest}
    (hrow : m.row i = .ok row) (value : row.value = .dataUnit signature) {rounds : Nat} {p' : Packer}
    (h : packUnits m registry (rounds + 1) ⟨.blank platform encoding m.supply, [i], [signature], [], []⟩
      = .ok p') : [signature] <+: p'.draft.units.map (·.signature) := by
  have hstart := packedSoFar_blank registry platform encoding known hrow value
  unfold packUnits at h
  split at h
  · cases ‹[i] = []›
  obtain ⟨p₁, hround, hrest⟩ := bind_eq_ok.mp h
  change List.foldlM _ _ [i] = _ at hround
  rw [List.foldlM_cons] at hround
  obtain ⟨p₁', hfirst, hnil⟩ := bind_eq_ok.mp hround
  cases hnil
  set p : Packer := ⟨.blank platform encoding m.supply, [], [signature], [], []⟩
  have hbefore : PackedSoFar m registry ((i, signature) :: []) p :=
    ⟨⟨hstart.valid, hstart.closed, rfl, rfl, known⟩, hstart.packed, hstart.rows, hstart.met, hstart.once⟩
  have hkind := (fits i row hrow).kind_of_dataUnit value
  obtain ⟨-, -, -, root, reference, -, hunits, -⟩ :=
    packUnit_packed fits hrow value (fun root => objects i row root hrow hkind) hbefore.toBetween
      (fun u hu => absurd hu List.not_mem_nil) hfirst
  obtain ⟨later, hlater, hpacked, -⟩ := packUnit_packedSoFar fits objects hbefore hfirst
  obtain ⟨-, -, -, hmoves, -⟩ := packUnits_packedSoFar fits objects hpacked hlater hrest
  have hprefix := hmoves.signatures
  rwa [hunits] at hprefix

/-- Whether a draft has every data unit of a model once, that of a top row first, and each with the
block of the root object that its rows have. -/
structure PackedOnce (m : Model) (registry : Registry) (top : Nat) (d : Draft) : Prop where
  once : (d.units.map (·.signature)).Nodup
  first : ∃ row s, m.row top = .ok row ∧ row.value = .dataUnit s ∧
    (d.units.map (·.signature)).head? = some s
  present : ∀ s ∈ d.units.map (·.signature), ∃ i row, m.row i = .ok row ∧ row.value = .dataUnit s
  /-- A count of elements that is lost makes a collection look empty, so its elements are not packed. -/
  all : LosesCount m ∨ ∀ i row s, m.row i = .ok row → row.value = .dataUnit s →
    s ∈ d.units.map (·.signature)
  roots : ∀ unit u, d.units[unit]? = some u → ∃ root, m.HasObject root ∧
    (∀ i row, m.row i = .ok row → row.value = .dataUnit u.signature → row.start = some root) ∧
    UnitPacked m registry (d.units.map (·.signature)) d unit u.signature root

/-- Packing a model packs every data unit of it once. -/
theorem packFrom_packedOnce (whole : m.Whole top) (units : m.UnitsReached top) {platform : Platform}
    {encoding : PointerEncoding} (h : packFrom m registry (.blank platform encoding m.supply) top = .ok d) :
    PackedOnce m registry top d := by
  obtain ⟨row, signature, p', hrow, hvalue, hpack, rfl⟩ := packFrom_start whole.fits h
  obtain ⟨-, hpacked, hmet, -⟩ :=
    packUnits_finished whole.fits whole.objects whole.texts hrow hvalue (Nat.lt_succ_self _) hpack
  have hfirst := packUnits_first whole.fits whole.objects whole.texts hrow hvalue hpack
  -- The data units that have been met are those of the draft, in another order at most.
  have hperm : p'.met.Perm (p'.draft.units.map (·.signature)) := by
    have hmets := hpacked.met
    rwa [List.map_nil, List.append_nil] at hmets
  refine
    { once := hperm.nodup_iff.mp hpacked.once
      first := ⟨row, signature, hrow, hvalue, ?_⟩
      present := fun s hs => ?_
      all := ?_
      roots := fun unit u hu => ?_ }
  · obtain ⟨rest, hrest⟩ := hfirst
    rw [← hrest]
    rfl
  · obtain ⟨u, hu, rfl⟩ := List.mem_map.mp hs
    obtain ⟨unit, hunit⟩ := List.mem_iff_getElem?.mp hu
    obtain ⟨i, row, -, hrow, hvalue, -⟩ := hpacked.packed unit u hunit
    exact ⟨i, row, hrow, hvalue⟩
  · refine or_iff_not_imp_left.mpr fun hcounts i row s hrow' hvalue' => ?_
    have hreached := units.reached i row s hrow' hvalue'
    exact hperm.mem_iff.mp ((hpacked.modelPacked.met_of_reaches whole.toWellFormed
      ⟨_, signature, hrow, hvalue, hmet⟩ hcounts hreached row hrow').2 s hvalue')
  · obtain ⟨i, row, root, hrow, hvalue, hstart, hunit⟩ := hpacked.packed unit u hu
    have hkind := (whole.fits i row hrow).kind_of_dataUnit hvalue
    refine ⟨root, (whole.roots i row root hrow hkind hstart).2, fun j row' hrow' hvalue' => ?_,
      hunit.mono hpacked.valid .refl (List.prefix_refl _) hperm.subset⟩
    obtain ⟨root', hroot'⟩ := units.rooted j row' _ hrow' hvalue'
    rw [hroot', whole.shared _ root' root ⟨j, row', hrow', hvalue', hroot'⟩ ⟨i, row, hrow, hvalue, hstart⟩]

/-- Every row with a block that is reached has an exact one, unless a collection that it is in looks empty. -/
theorem ModelExact.made_of_reaches {made : List (Reference × Nat)} (exact : ModelExact m registry d made)
    (once : PackedOnce m registry top d) (wellFormed : m.WellFormed top) (counts : ¬ LosesCount m)
    (reached : m.Reaches top i) {row : Row} (hrow : m.row i = .ok row) (block : row.HasBlock) :
    ∃ reference, (reference, i) ∈ made := by
  have hall := once.all.resolve_left counts
  obtain ⟨top', s, htop, hvalue, hfirst⟩ := once.first
  refine (blocks_of_reaches (B := fun i => ∃ reference, (reference, i) ∈ made)
    (U := (· ∈ d.units.map (·.signature))) wellFormed counts ⟨top', s, htop, hvalue, hall _ _ s htop hvalue⟩
    ?_ ?_ reached row hrow).1 block
  · rintro i j owner row ⟨reference, hmade⟩ howner howns hrow
    refine ⟨fun hblock => ?_, fun s hvalue => hall j row s hrow hvalue⟩
    obtain ⟨block, -, -, hexact⟩ := exact.exact _ hmade
    obtain ⟨-, body, span, starts, -, -, -, hmembers, -, hbody, -⟩ := hexact.content
    have hspan : owner.members = .ok span := (Model.members_eq howner).symm.trans hmembers
    obtain ⟨k, hk, rfl⟩ := (Row.owns_iff hspan j).mp howns
    obtain ⟨row', hrow', hpacked⟩ := hbody.rows k _ (List.getElem?_eq_getElem (hbody.length ▸ hk))
    obtain rfl := Except.ok.inj (hrow.symm.trans hrow')
    obtain ⟨target, htarget, -⟩ := hpacked.block hblock
    exact ⟨target, htarget⟩
  · intro s hs
    obtain ⟨u, hu, rfl⟩ := List.mem_map.mp hs
    obtain ⟨k, row, root, reference, hrow, hvalue, hstart, -, hmade⟩ := exact.roots u hu
    exact ⟨root, ⟨k, row, hrow, hvalue, hstart⟩, reference, hmade⟩

/-- Every object that is there has an exact block, unless a collection that it is in looks empty. -/
theorem ModelExact.made_of_object {made : List (Reference × Nat)} (exact : ModelExact m registry d made)
    (once : PackedOnce m registry top d) (whole : m.Whole top) (counts : ¬ LosesCount m) (object : m.HasObject i) :
    ∃ reference, (reference, i) ∈ made := by
  obtain ⟨row, hobject, hkind, hpresent⟩ := object
  exact exact.made_of_reaches once whole.toWellFormed counts (whole.complete i ⟨row, hobject, hkind, hpresent⟩)
    hobject ⟨hpresent, Or.inl hkind⟩

end Packing

end ObjectPack
