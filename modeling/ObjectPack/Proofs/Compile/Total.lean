import ObjectPack.Proofs.Compile
import ObjectPack.Proofs.Interface.Total
import ObjectPack.Proofs.Packing.Finish
import ObjectPack.Proofs.Packing.Packs

/-!
# Compiling breaks no contract

Whatever data unit is compiled, under whatever options, the answer is a container with its interface or an error
about the data unit, and no contract is broken on the way (`Options.compile_keepsContracts`).  This takes what the
library cannot see to (`Options.Manageable`): custom structs have to keep to what they declare, tables and offsets
have to stay inside their machine words, and digests have to tell blocks apart.
-/

namespace ObjectPack

open Outcome Packing

/-- The roots of packed data units are there. -/
theorem Packing.ModelPacked.means_root {m : Model} {registry : Registry} {met : List Digest} {d : Draft}
    (packed : ModelPacked m registry met d) {unit : Nat} {u : DraftUnit} (hu : d.units[unit]? = some u)
    {r : Reference} (root : r ∈ u.root) : d.MeansIn unit r := by
  obtain ⟨i, row, object, -, -, -, made, used, reference, hunit, hmade, hfilled, -⟩ := packed.packed unit u hu
  obtain rfl : reference = r := by
    have hroot : u.root = some reference := congrArg DraftUnit.root (Option.some.inj (hu.symm.trans hunit))
    rw [hroot] at root
    exact Option.some.inj root
  obtain ⟨block, hblock, hreference, body, hbody, hin, -⟩ := hfilled _ hmade
  exact ⟨block, hblock, body, hbody, hin, Or.inl hreference⟩

namespace Options

/-- Whether compiling a data unit stays inside all machine words, with custom structs that keep to what they
declare and digests that tell blocks apart. -/
structure Manageable (o : Options) (classifier : Classifier) (registry : Registry) (unit : DataUnit) : Prop where
  customs : ∀ c, (Value.dataUnit unit).HasCustom c →
    isPowerOfTwo c.alignment = true ∧ c.alignment < wordLimit ∧ c.Behaves
  /-- The rows of the walked model have indices, and so have those of the solved model. -/
  walked : ∀ root m, o.walk classifier unit = .ok (root, m) → m.size < Model.indexLimit
  solved : ∀ root m, o.solvedModel classifier unit = .ok (root, m) → m.size < Model.indexLimit
  /-- Blocks that are packed end below the limit of offsets, and so does the container. -/
  blocks : ∀ root m i, o.solvedModel classifier unit = .ok (root, m) → m.Packs root i → m.reach i < dataLimit
  size : ∀ root m d, o.solvedModel classifier unit = .ok (root, m) →
    packFrom m registry (.blank o.platform o.encoding m.supply) root = .ok d → d.linkedSize < dataLimit
  tell : ∀ root m d, o.solvedModel classifier unit = .ok (root, m) →
    packFrom m registry (.blank o.platform o.encoding m.supply) root = .ok d →
    ∀ i < d.units.length, Section.DigestsTell d.endian (d.sections i)

variable {o : Options} {classifier : Classifier} {registry : Registry} {unit : DataUnit} {m : Model} {root : Nat}

/-- A data unit that can be walked gives a model whose layout can be solved. -/
theorem solvedModel_keepsContracts (h : o.Manageable classifier registry unit) :
    KeepsContracts (o.solvedModel classifier unit) := by
  refine .bind (keepsContracts_mapError _ _) fun (row, walked) hwalk => ?_
  have hsmall := h.walked row walked hwalk
  obtain ⟨hsolvable, -⟩ := Walk.Rules.walk_solvable (mapError_eq_ok.mp hwalk)
  obtain ⟨result, hsolve, -⟩ := hsolvable.exists_solve hsmall
  exact .bind (.lift ⟨result, hsolve⟩) fun _ _ => keepsContracts_ok _

/-- The solved model of a data unit can be packed and declared. -/
theorem solvedModel_packable (h : o.Manageable classifier registry unit)
    (solved : o.solvedModel classifier unit = .ok (root, m)) :
    (∃ first, Packable m (fun c => (Value.dataUnit unit).HasCustom c) first root) ∧ m.Declarable ∧
      ∃ row, m.row root = .ok row ∧ row.value = .dataUnit (.ofText unit.signature) := by
  obtain ⟨walked, passes, hwalk, hsolve⟩ := solvedModel_eq_ok.mp solved
  have hsmall : walked.size < Model.indexLimit := h.walked root walked (by rw [walk, hwalk]; rfl)
  obtain ⟨hsolvable, hfilled, object, hobject, hvalue⟩ := Walk.Rules.walk_solvable hwalk
  obtain ⟨result, hresult, hsolvable'⟩ := hsolvable.exists_solve hsmall
  obtain rfl := Except.ok.inj (hsolve.symm.trans hresult)
  obtain ⟨place, hplace⟩ := Model.solve_solved hsolvable.whole hsolvable.ordered hsolve
  obtain ⟨origins, hpictures, -⟩ :=
    Walk.Rules.walk_pictures_within (fun _ => True) trivial (fun _ _ _ _ => trivial) hwalk
  have hstill : place root = root := hplace.still root fun k o ho =>
    hsolvable.whole.notTop k o ho.1 ho.kind_ne
  have hmoved := hplace.row root object hobject
  rw [hstill] at hmoved
  refine ⟨⟨walked.size, ?_⟩, hpictures.declarable hplace (Walk.Rules.walk_reserved hwalk) hsmall hsolvable'.sturdy,
    _, hmoved, (Model.foldedRow_value _ _).trans hvalue⟩
  exact
    { toSolvable := hsolvable'
      small := hsmall
      customs := h.customs
      blocks := fun i hi => h.blocks root m i solved hi
      filled := fun i j owner part packs howner owns hpart kind =>
        hplace.filled hsolvable.whole hfilled hsolvable'.whole.fits hstill packs howner owns hpart kind }

/-- The solved model of a data unit can be packed, and linking what it is packed to breaks no contract. -/
theorem pack_keepsContracts (h : o.Manageable classifier registry unit)
    (solved : o.solvedModel classifier unit = .ok (root, m)) : KeepsContracts (o.pack registry m root) := by
  obtain ⟨⟨first, hpackable⟩, -, row, hrow, hvalue⟩ := solvedModel_packable h solved
  obtain ⟨d, hpack, hsettled, hclosed⟩ :=
    exists_packFrom hpackable hrow hvalue hpackable.whole.texts o.platform o.encoding
  obtain ⟨-, -, met, -, -, -, hpacked, -⟩ :=
    packFrom_packed hpackable.whole.fits hpackable.whole.objects hpackable.whole.texts hpack
  have hlink : KeepsContracts d.link :=
    Draft.link_keepsContracts hpacked.valid hsettled hclosed
      (fun unit u hu r hr => hpacked.means_root hu hr) (h.tell root m d solved hpack) (h.size root m d solved hpack)
  have hresult : ∃ result, m.pack registry o.platform o.encoding root = .ok result := by
    unfold Model.pack
    rw [hpack]
    dsimp only
    cases hlinked : d.link with
    | ok container => exact ⟨_, rfl⟩
    | error failure =>
      cases failure with
      | fault broken => exact absurd hlinked (hlink broken)
      | error e => exact ⟨_, rfl⟩
  exact .bind (.lift hresult) fun _ _ => keepsContracts_mapError _ _

/-- **Compiling breaks no contract**: it gives a container and an interface, or an error about the data unit. -/
theorem compile_keepsContracts (h : o.Manageable classifier registry unit) :
    KeepsContracts (o.compile classifier registry unit) := by
  refine .bind (solvedModel_keepsContracts h) fun (root, m) hsolved => ?_
  obtain ⟨⟨first, hpackable⟩, hdeclarable, -⟩ := solvedModel_packable h hsolved
  refine .bind (pack_keepsContracts h hsolved) fun container _ => ?_
  have hinterface := hpackable.toSolvable.interface_keepsContracts (h.solved root m hsolved) hdeclarable o.style
  exact .bind (hinterface.map _) fun _ _ => keepsContracts_ok _

/-- A number, three bytes of padding and another number. -/
def paddedSpan : CustomStruct := ⟨"Span", 8, 4, [.scalar (.u8 1), .align 4, .scalar (.u32 2)], [], []⟩

/-- The struct aligns itself and takes the bytes that it declares. -/
theorem paddedSpan_behaves : paddedSpan.Behaves := by
  refine CustomStruct.behaves_of_fit fun e position aligned small => ?_
  have haligned : position % 4 = 0 := aligned
  have hsmall : position + 8 < 0x80000000 := small
  have hrounded : alignUp (position + 1) 4 = .ok (position + 4) := by
    have hlow : (position + 4) &&& 3 = 0 := by
      rw [Nat.and_two_pow_sub_one_eq_mod _ 2]
      omega
    have hword : position + 1 + 4 < wordLimit := by
      rw [wordLimit]
      omega
    unfold alignUp
    rw [if_neg (by decide), if_pos hword]
    show Except.ok (position + 4 - ((position + 4) &&& 3)) = _
    rw [hlow, Nat.sub_zero]
  have hfirst : ((Scalar.u8 1).encode e).length = 1 := by cases e <;> rfl
  have hlast : ((Scalar.u32 2).encode e).length = 4 := by cases e <;> rfl
  have hpadding : (Bytes.zeros (WriteStep.padding (position + 1) 4)).length = 3 := by
    rw [Bytes.length_zeros, WriteStep.padding_eq hrounded]
    omega
  simp only [paddedSpan, WriteStep.AllFitAt, WriteStep.allBytesAt, WriteStep.FitsAt, WriteStep.bytesAt,
    List.length_append, List.length_nil, hfirst, hlast, hpadding, and_true]
  refine ⟨Nat.mod_one _, ⟨_, hrounded⟩, ?_⟩
  show (position + 4) % 4 = 0
  omega

/-- An object that handles the data unit that it is in. -/
def shapedItem : Object :=
  ⟨"Item", [⟨"m_unit", .dataUnit "Root", .dataUnit ⟨"shapes", ⟨"Root", []⟩⟩⟩,
    ⟨"m_tag", .scalar .u8, .scalar (.u8 3)⟩]⟩

/-- A data unit with a boolean, a text, a custom struct that aligns itself, an empty array of such structs, an
array of an object and of no object, and a dictionary. -/
def shapes : DataUnit :=
  ⟨"shapes", ⟨"Root", [⟨"m_shown", .bool, .bool true⟩, ⟨"m_name", .string, .text "a"⟩,
    ⟨"m_span", .custom "Span", .custom paddedSpan⟩, ⟨"m_spans", .array (.custom "Span"), .sequence []⟩,
    ⟨"m_items", .array (.object "Item"), .sequence [.object shapedItem, .null]⟩,
    ⟨"m_table", .dictionary (.scalar .u8) (.scalar .u32),
      .dictionary [(.scalar (.u8 5), .scalar (.u32 6))]⟩]⟩⟩

/-- The only custom value of the data unit is the struct that aligns itself. -/
theorem shapes_customs {c : CustomStruct} (h : (Value.dataUnit shapes).HasCustom c) : c = paddedSpan := by
  have hin := Value.hasCustom_iff.mp h
  simpa (disch := decide) [shapes, shapedItem, Value.in_of_isLeaf] using hin

/-- The data unit is compiled to a container and an interface. -/
theorem compile_keepsContracts_shapes : Manageable {} .standard .empty shapes ∧
    (Value.dataUnit shapes).HasCustom paddedSpan ∧ KeepsContracts (compile {} .standard .empty shapes) := by
  have hcheck : (walk {} .standard shapes).toOption.any (fun x => x.2.size < 100) &&
      (solvedModel {} .standard shapes).toOption.any (fun x => x.2.size < 100 &&
        (List.range x.2.size).all (x.2.reach · < 100) &&
        (packFrom x.2 .empty (.blank .win64 .chained x.2.supply) x.1).toOption.any fun d =>
          d.units.length = 1 && d.linkedSize < 200 && Section.digestsTell d.endian 5 (d.sections 0)) = true := by
    decide +kernel
  simp only [Option.any_eq_true, Bool.and_eq_true, List.all_eq_true, List.mem_range, decide_eq_true_eq,
    toOption_eq_some, Prod.exists] at hcheck
  obtain ⟨⟨first, table, hwalk, htable⟩, root, m, hsolved, ⟨hsize, hreach⟩, d, hd, ⟨hunits, hlinked⟩, htell⟩ :=
    hcheck
  have hsame : ∀ {root' m'}, solvedModel {} .standard shapes = .ok (root', m') → root' = root ∧ m' = m := by
    intro root' m' h
    rw [hsolved] at h
    cases h
    exact ⟨rfl, rfl⟩
  have hmanageable : Manageable {} .standard .empty shapes :=
    { customs := fun c hc => by
        rw [shapes_customs hc]
        exact ⟨by decide, by decide, paddedSpan_behaves⟩
      walked := fun _ table' h => by
        rw [hwalk] at h
        cases h
        exact Nat.lt_trans htable (by decide)
      solved := fun _ m' h => by
        rw [(hsame h).2]
        exact Nat.lt_trans hsize (by decide)
      blocks := fun _ m' i h _ => by
        obtain ⟨rfl, rfl⟩ := hsame h
        rcases Nat.lt_or_ge i m'.size with hlt | hge
        · exact Nat.lt_trans (hreach i hlt) (by decide)
        · rw [Model.reach_of_size_le hge]
          decide
      size := fun _ _ d' h hd' => by
        obtain ⟨rfl, rfl⟩ := hsame h
        cases hd.symm.trans hd'
        exact Nat.lt_trans hlinked (by decide)
      tell := fun _ _ d' h hd' i hi => by
        obtain ⟨rfl, rfl⟩ := hsame h
        cases hd.symm.trans hd'
        obtain rfl : i = 0 := by omega
        exact Section.digestsTell_of_check htell }
  have hspan : (⟨"m_span", .custom "Span", .custom paddedSpan⟩ : Field) ∈ shapes.root.fields :=
    .tail _ (.tail _ (.head _))
  exact ⟨hmanageable, .root (.field hspan .self), compile_keepsContracts hmanageable⟩

end Options

end ObjectPack
