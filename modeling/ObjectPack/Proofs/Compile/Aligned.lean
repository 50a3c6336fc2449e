import ObjectPack.Proofs.Compile.Exact
import ObjectPack.Proofs.Link.Layout
import ObjectPack.Proofs.Packing.Aligned

/-!
# Everything in a container is aligned

The layout places rows in a block by their alignments, linking places blocks in a data unit by theirs, and data units
are placed in the container by the alignments of the blocks that survive merging.  So every row of every block that
is packed stands at a multiple of its alignment, be it counted from the beginning of the data unit or from that of
the container, and whether the block has been merged or not (`Options.compile_aligned`).
-/

namespace ObjectPack

open Outcome Packing

/-- Whether the rows that row `owner` owns stand in a container at multiples of their alignments: the block that
holds them stands in its data unit, merged into another one maybe, and each row at its offset in the block. -/
structure Packing.StandsAligned (m : Model) (d : Draft) (packed : PackedContainer) (block : Block) (body : Body)
    (owner : Nat) : Prop where
  stands : (d.sectionOf block body).StandsAt d.endian (packed.unitBytes body.unit) (d.placeIn body.unit)
  rows : ∃ u span starts, packed.units[body.unit]? = some u ∧ m.members owner = .ok span ∧
    m.memberOffsets owner = .ok starts ∧ starts.length = span.length ∧ ∀ k start, starts[k]? = some start →
      ∃ alignment, m.alignment (span.start + k) = .ok alignment ∧
        alignment ∣ d.placeIn body.unit block.reference + start ∧
        alignment ∣ u.offset + (d.placeIn body.unit block.reference + start)

namespace Options

variable {o : Options} {classifier : Classifier} {registry : Registry} {unit : DataUnit} {root : Nat} {m : Model}

/-- In the solved model of a data unit the elements of every collection match, and rows go by the names of what
they hold. -/
theorem solvedModel_named (solved : o.solvedModel classifier unit = .ok (root, m)) :
    m.Matched ∧ m.Named (.dataUnit unit) := by
  obtain ⟨walked, passes, hwalk, hsolve⟩ := solvedModel_eq_ok.mp solved
  have hwhole := Walk.Rules.walk_whole (s := .full) hwalk
  have hordered := Walk.Rules.walk_ordered (s := .full) hwalk
  obtain ⟨place, hplace⟩ := Model.solve_solved hwhole hordered hsolve
  exact ⟨hplace.matched hwhole hordered (Walk.Rules.walk_matched hwalk),
    hplace.named hwhole hordered (Walk.Rules.walk_named hwalk)⟩

/-- **Everything is aligned in what a data unit is compiled to**: every row of every block that is packed stands at
a multiple of its alignment, in its data unit and in the container, if custom structs have alignments that are powers
of two, if custom structs and enumerations of one name are aligned alike, and if digests tell blocks apart. -/
theorem compile_aligned {result : CompiledUnit} (compiled : o.compile classifier registry unit = .ok result)
    (aligns : (Value.dataUnit unit).AlignsByName)
    (tell : ∀ root m d, o.solvedModel classifier unit = .ok (root, m) →
      packFrom m registry (.blank o.platform o.encoding m.supply) root = .ok d →
      ∀ i < d.units.length, Section.DigestsTell d.endian (d.sections i)) :
    ∃ root m d made, o.solvedModel classifier unit = .ok (root, m) ∧
      packFrom m registry (.blank o.platform o.encoding m.supply) root = .ok d ∧ d.link = .ok result.data ∧
      ModelExact m registry d made ∧ ∀ reference owner, (reference, owner) ∈ made →
        ∃ block ∈ d.blocks, block.reference = reference ∧ ∃ body ∈ block.body,
          StandsAligned m d result.data block body owner := by
  obtain ⟨root, m, hsolved, hpacked, -⟩ := compile_eq_ok.mp compiled
  have hwhole := solvedModel_whole hsolved
  obtain ⟨hmatched, hnamed⟩ := solvedModel_named hsolved
  obtain ⟨d, hdraft, hlink⟩ := exists_draft hpacked
  obtain ⟨made, hexact, howned⟩ := packFrom_exact_owned hwhole.fits hwhole.objects hwhole.texts hdraft
  obtain ⟨-, -, met, -, -, -, hmodel, -⟩ := packFrom_packed hwhole.fits hwhole.objects hwhole.texts hdraft
  have hvalid := hmodel.valid
  have htell := tell root m d hsolved hdraft
  have hlaid := hvalid.wellLaid hlink
  refine ⟨root, m, d, made, hsolved, hdraft, hlink, hexact, fun reference owner hmade => ?_⟩
  obtain ⟨block, hblock, hreference, hfor⟩ := hexact.exact _ hmade
  obtain ⟨size, body, span, starts, hsize, -, hbody, hmembers, hstarts, hrows, -⟩ := hfor.content
  -- The data unit of the block has a place in the container.
  have hunit : body.unit < d.units.length := (hvalid.bodies block hblock body hbody).registered
  have hcount : result.data.units.length = d.units.length := by
    have horder := congrArg List.length hlaid.order
    rwa [List.length_map, List.length_map] at horder
  have hu := List.getElem?_eq_getElem (hcount ▸ hunit)
  have hstands := (hvalid.placedIn hlink hunit (htell _ hunit)).blocks block hblock body hbody rfl
  have hoffset := hvalid.block_dvd_offset (hlaid.units _ _ hu) (htell _ hunit) hblock hbody rfl
  -- The offsets of the rows are those of the layout.
  obtain ⟨⟨span', starts', hlayout⟩, -⟩ := Model.offsets_of_blockSize (howned _ hmade) hsize
  obtain rfl := Except.ok.inj (hmembers.symm.trans hlayout.1)
  obtain rfl := Except.ok.inj (hstarts.symm.trans hlayout.memberOffsets)
  obtain ⟨-, hlength, stop, hplaced⟩ := hlayout
  refine ⟨block, hblock, hreference, body, hbody, hstands, _, span, starts, hu, hmembers, hstarts, hlength,
    fun k start hk => ?_⟩
  obtain ⟨a, ha, hstart, hblockAlignment⟩ := Model.exists_alignment_of_offset hmatched hwhole.fits hnamed aligns
    (howned _ hmade) hfor.alignment (hvalid.powers block hblock) hmembers hlength hplaced hk
  have hplace : a ∣ d.placeIn body.unit block.reference + start :=
    Nat.dvd_add (Nat.dvd_trans hblockAlignment hstands.aligned) hstart
  exact ⟨a, ha, hplace, Nat.dvd_add (Nat.dvd_trans hblockAlignment hoffset) hplace⟩

/-- A custom struct that is more aligned than anything else in a data unit is by itself. -/
def beam : CustomStruct := ⟨"Beam", 32, 32, [.scalar (.u64 1), .zeros 24], [], []⟩

/-- An enumeration that is packed in two bytes. -/
def shade : Enumeration := ⟨"Shade", .u16, [("dark", 0), ("light", 1)], (rfl : true = true)⟩

/-- An object that is as aligned as the custom struct in it. -/
def beamed : Object :=
  ⟨"Beamed", [⟨"m_beam", .custom "Beam", .custom beam⟩, ⟨"m_tag", .scalar .u8, .scalar (.u8 3)⟩]⟩

/-- A data unit with an array of enumeration values and an array of two equal objects. -/
def mergedBeams : DataUnit :=
  ⟨"beams", ⟨"Root", [⟨"m_small", .scalar .u8, .scalar (.u8 1)⟩,
    ⟨"m_shades", .list (.enum shade), .sequence [.enum shade 0, .enum shade 1]⟩,
    ⟨"m_beams", .array (.object "Beamed"), .sequence [.object beamed, .object beamed]⟩]⟩⟩

/-- The data unit has one custom struct and one enumeration. -/
theorem mergedBeams_aligns : (Value.dataUnit mergedBeams).AlignsByName := by
  have hcustom : ∀ c, (Value.dataUnit mergedBeams).HasCustom c → c = beam := by
    intro c h
    have hin := Value.hasCustom_iff.mp h
    simpa (disch := decide) [mergedBeams, beamed, Value.in_of_isLeaf] using hin
  have henum : ∀ e, (Value.dataUnit mergedBeams).HasEnum e → e = shade := by
    rintro e (⟨v, h⟩ | ⟨object, field, h, mem, hmentions⟩)
    · have hvalue : e = shade ∧ v = 0 ∨ e = shade ∧ v = 1 := by
        simpa (disch := decide) [mergedBeams, beamed, Value.in_of_isLeaf] using h
      exact hvalue.elim And.left And.left
    · have hobject : object = mergedBeams.root ∨ object = beamed := by
        simpa (disch := decide) [mergedBeams, beamed, Value.in_of_isLeaf] using h
      rcases hobject with rfl | rfl
      · simp only [mergedBeams, List.mem_cons, List.not_mem_nil, or_false] at mem
        rcases mem with rfl | rfl | rfl
        · cases hmentions
        · exact hmentions
        · cases hmentions
      · simp only [beamed, List.mem_cons, List.not_mem_nil, or_false] at mem
        rcases mem with rfl | rfl <;> cases hmentions
  exact
    { powers := fun c hc => hcustom c hc ▸ by decide
      customs := fun c c' hc hc' _ => by rw [hcustom c hc, hcustom c' hc']
      enums := fun e e' he he' _ => by rw [henum e he, henum e' he'] }

/-- The blocks of both objects stand at one place, a multiple of 32, and so does the data unit. -/
theorem compile_aligned_mergedBeams : ∃ result root m d made,
    (Value.dataUnit mergedBeams).AlignsByName ∧ (Value.dataUnit mergedBeams).HasCustom beam ∧
    compile {} .standard .empty mergedBeams = .ok result ∧
    result.data.units.map (fun u => (u.offset, u.merged)) = [(64, 1)] ∧
    solvedModel {} .standard mergedBeams = .ok (root, m) ∧ d.link = .ok result.data ∧
    d.blocks.map (fun block => (block.alignment, d.placeIn 0 block.reference)) =
      [(1, 16), (8, 16), (8, 56), (2, 72), (32, 96), (32, 96)] ∧
    ModelExact m .empty d made ∧ ∀ reference owner, (reference, owner) ∈ made →
      ∃ block ∈ d.blocks, block.reference = reference ∧ ∃ body ∈ block.body,
        StandsAligned m d result.data block body owner := by
  have hcheck : ((compile {} .standard .empty mergedBeams).toOption.any fun result =>
      result.data.units.map (fun u => (u.offset, u.merged)) = [(64, 1)]) &&
      (solvedModel {} .standard mergedBeams).toOption.any (fun x =>
        (packFrom x.2 .empty (.blank .win64 .chained x.2.supply) x.1).toOption.any fun d =>
          d.units.length = 1 && Section.digestsTell d.endian 6 (d.sections 0) &&
            d.blocks.map (fun block => (block.alignment, d.placeIn 0 block.reference)) =
              [(1, 16), (8, 16), (8, 56), (2, 72), (32, 96), (32, 96)]) = true := by
    decide +kernel
  simp only [Option.any_eq_true, Bool.and_eq_true, decide_eq_true_eq, toOption_eq_some, Prod.exists] at hcheck
  obtain ⟨⟨result, hcompile, hunits⟩, root, m, hsolved, d, hd, ⟨hsingle, htell⟩, hplaces⟩ := hcheck
  have hsame : ∀ {root' m' d'}, solvedModel {} .standard mergedBeams = .ok (root', m') →
      packFrom m' .empty (.blank .win64 .chained m'.supply) root' = .ok d' → d' = d := by
    intro root' m' d' hsolved' hd'
    obtain ⟨rfl, rfl⟩ := Prod.mk.inj (Except.ok.inj (hsolved.symm.trans hsolved'))
    exact Except.ok.inj (hd'.symm.trans hd)
  have hdigests : ∀ root' m' d', solvedModel {} .standard mergedBeams = .ok (root', m') →
      packFrom m' .empty (.blank .win64 .chained m'.supply) root' = .ok d' →
      ∀ i < d'.units.length, Section.DigestsTell d'.endian (d'.sections i) := by
    intro root' m' d' hsolved' hd' i hi
    obtain rfl := hsame hsolved' hd'
    obtain rfl : i = 0 := by omega
    exact Section.digestsTell_of_check htell
  obtain ⟨root', m', d', made, hsolved', hd', hlink, hexact, haligned⟩ :=
    compile_aligned hcompile mergedBeams_aligns hdigests
  obtain rfl := hsame hsolved' hd'
  have hbeam : (Value.dataUnit mergedBeams).HasCustom beam := by
    refine Value.hasCustom_iff.mpr ?_
    simp (disch := decide) [mergedBeams, beamed, Value.in_of_isLeaf]
  exact ⟨result, root', m', d', made, mergedBeams_aligns, hbeam, hcompile, hunits, hsolved', hlink, hplaces, hexact,
    haligned⟩

end Options

end ObjectPack
