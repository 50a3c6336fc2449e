import ObjectPack.Proofs.Compile.Exact
import ObjectPack.Proofs.Compile.Once
import ObjectPack.Proofs.Interface.Bits

/-!
# Booleans of a compiled data unit

The boolean fields of an object become bits when the layout is solved, the interface reads them with masks, and
the words are packed as numbers of 32 bits.  For every struct of an interface the three agree
(`Options.compile_readsBooleans`): a boolean field has one getter, the getter masks one bit of a word that the
struct has, and in the block of the object the bit is set iff the boolean is true; all other bits are clear.
-/

namespace ObjectPack

open Outcome Interface Packing

/-- Only solving the layout makes words of booleans. -/
theorem Walk.Rules.walk_kind_ne_bitSet {r : Rules} {unit : DataUnit} {top i : Nat} {m : Model} {row : Row}
    (h : r.walk .empty unit = .ok (top, m)) (hrow : m.row i = .ok row) : row.kind ≠ .bitSet := by
  obtain ⟨origins, hpictures⟩ := exists_pictures h
  obtain ⟨_, -, hshows⟩ := hpictures.shown hrow
  exact hshows.kind_ne_bitSet

namespace Packing

variable {m : Model} {registry : Registry} {scope : Scope} {d : Draft} {block : Block} {k : Nat} {span : Span}
  {s : StructDeclaration}

/-- Whether a block for row `k` holds the words of a struct where the layout places them. -/
def HoldsWords (m : Model) (d : Draft) (block : Block) (k : Nat) (span : Span) (s : StructDeclaration) : Prop :=
  ∃ body starts, block.body = some body ∧ m.memberOffsets k = .ok starts ∧ ∀ j F word, m.HasWord span s j F word →
    ∃ start, starts[j]? = some start ∧ d.HoldsAt body start ((Scalar.u32 word).encode d.endian)

theorem BlockExact.holdsWords (h : BlockExact m registry scope d block k) (hspan : m.members k = .ok span)
    (fields : s.fields.length = span.length) : HoldsWords m d block k span s := by
  obtain ⟨-, body, span', starts, -, -, hbody, hspan', hstarts, hexact, -⟩ := h.content
  obtain rfl := Except.ok.inj (hspan.symm.trans hspan')
  refine ⟨body, starts, hbody, hstarts, fun j F word hword => ?_⟩
  obtain ⟨hfield, w, hrow, -, -, hvalue⟩ := hword
  have hj : j < starts.length := by
    rw [hexact.length, ← fields]
    exact (List.getElem?_eq_some_iff.mp hfield).1
  obtain ⟨w', hrow', hpacked⟩ := hexact.rows j _ (List.getElem?_eq_getElem hj)
  obtain rfl := Except.ok.inj (hrow.symm.trans hrow')
  exact ⟨_, List.getElem?_eq_getElem hj, hpacked.holds_plain (by rw [Row.plain?, hvalue])⟩

end Packing

namespace Options

variable {o : Options} {classifier : Classifier} {registry : Registry} {unit : DataUnit}

/-- In what a data unit is compiled to, every struct reads the booleans of its object: those that the object has had
when the data unit was walked (`Model.ReadsBooleans`).  The words that the getters read are packed where the layout
places them, in every block that is made for the object, and there is one, unless a count of elements is lost. -/
theorem compile_readsBooleans {result : CompiledUnit}
    (compiled : o.compile classifier registry unit = .ok result) :
    ∃ root walked m passes place d made ds, (o.rules classifier).walk .empty unit = .ok (root, walked) ∧
      walked.solve = .ok (m, passes) ∧ walked.Solved m passes place ∧ m.interface o.style = .ok result.code ∧
      m.definitions = .ok ds ∧ packFrom m registry (.blank o.platform o.encoding m.supply) root = .ok d ∧
      d.link = .ok result.data ∧ ModelExact m registry d made ∧
      ∀ name k, (name, .object k) ∈ ds → ∃ i object s span getters bit, walked.IsObject i object ∧ place i = k ∧
        m.structDeclaration name k = .ok s ∧ (∃ front definitions,
          result.code = o.style.frame (front ++ String.join definitions) ∧ s.text ∈ definitions) ∧
        m.members k = .ok span ∧ span.mapM m.getters = .ok getters ∧ s.getters = getters.flatten ∧
        walked.ReadsBooleans object m span s getters bit ∧ (LosesCount m ∨ ∃ reference, (reference, k) ∈ made) ∧
        ∀ reference, (reference, k) ∈ made → ∃ block ∈ d.blocks, block.reference = reference ∧
          HoldsWords m d block k span s := by
  obtain ⟨root, m, hsolved, hpacked, hcode⟩ := compile_eq_ok.mp compiled
  obtain ⟨walked, passes, hwalk, hsolve⟩ := solvedModel_eq_ok.mp hsolved
  have hwhole := Walk.Rules.walk_whole (s := .full) hwalk
  have hwhole' := solvedModel_whole hsolved
  have hordered := Walk.Rules.walk_ordered (s := .full) hwalk
  obtain ⟨place, hplace⟩ := Model.solve_solved hwhole hordered hsolve
  have hwritten : m.interface o.style = .ok result.code := mapError_eq_ok.mp hcode
  obtain ⟨ds, hds, -⟩ := bind_eq_ok.mp hwritten
  have hds := lift_eq_ok.mp hds
  obtain ⟨d, hdraft, hlink⟩ := exists_draft hpacked
  obtain ⟨made, hexact⟩ := packFrom_exact hwhole'.fits hwhole'.objects hwhole'.texts hdraft
  have honce := packFrom_packedOnce hwhole' (solvedModel_unitsReached hsolved).1 hdraft
  refine ⟨root, walked, m, passes, place, d, made, ds, hwalk, hsolve, hplace, hwritten, hds, hdraft, hlink, hexact,
    fun name k hmem => ?_⟩
  obtain ⟨s, hstruct, hemitted⟩ := Model.exists_struct_of_interface hwritten hds hmem
  obtain ⟨row, hrow, hthere, -⟩ := Model.object_of_definitions hds hmem
  obtain ⟨i, object, hobject, rfl⟩ := hplace.objects k row hrow
  obtain ⟨span, getters, bit, hspan, hgetters, hflatten, hreads⟩ := hplace.readsBooleans hwhole hwhole' hordered hobject
    (fun x r _ hr => Walk.Rules.walk_kind_ne_bitSet hwalk hr) hstruct
  refine ⟨i, object, s, span, getters, bit, hobject, rfl, hstruct, hemitted, hspan, hgetters, hflatten, hreads, ?_,
    fun reference hmade => ?_⟩
  · refine or_iff_not_imp_left.mpr fun hcounts => hexact.made_of_object honce hwhole' hcounts ?_
    exact ⟨row, hrow.1, hrow.2, (hwhole'.fits _ row hrow.1).present_of_object hrow.2 hthere⟩
  · obtain ⟨block, hblock, hreference, hfor⟩ := hexact.exact _ hmade
    obtain ⟨span', -, hspan', -, -, -, hlength, -⟩ := Model.structDeclaration_eq_ok hstruct
    obtain rfl := Except.ok.inj (hspan.symm.trans hspan')
    exact ⟨block, hblock, hreference, hfor.holdsWords hspan hlength⟩

/-- An object with 34 booleans, more than one word holds, around and between other fields. -/
def manyFlags : DataUnit :=
  let flag (k : Nat) : Field := ⟨"m_f" ++ toString k, .bool, .bool (k % 3 = 0)⟩
  ⟨"flags", ⟨"Root", (List.range 20).map flag ++ [⟨"m_wide", .scalar .u64, .scalar (.u64 7)⟩]
    ++ (List.range' 20 14).map flag ++ [⟨"m_small", .scalar .u8, .scalar (.u8 1)⟩]⟩⟩

/-- The last boolean is the second bit of the second word, which stands behind the first one in the struct. -/
theorem compile_readsBooleans_manyFlags : ∃ (place : Nat → Nat) (bit : Nat → Nat × Nat) (result : CompiledUnit),
    ∃ root walked m passes d made i object s span getters reference block,
    compile {} .standard .empty manyFlags = .ok result ∧
    (rules {} .standard).walk .empty manyFlags = .ok (root, walked) ∧ walked.solve = .ok (m, passes) ∧
    m.interface .standard = .ok result.code ∧ d.link = .ok result.data ∧ walked.IsObject i object ∧ place i = 1 ∧
    m.structDeclaration "root_t" 1 = .ok s ∧
    s.fields = [("wide", .named "u64"), ("f0", .named "u32"), ("f32", .named "u32"), ("small", .named "u8")] ∧
    s.getters.length = 36 ∧ s.getters[34]? = some (.bit "f33" "f32" 1) ∧ s.getters = List.flatten getters ∧
    walked.ReadsBooleans object m span s getters bit ∧ (reference, 1) ∈ made ∧ ModelExact m .empty d made ∧
    block ∈ d.blocks ∧ block.reference = reference ∧ HoldsWords m d block 1 span s := by
  have hcheck : ((compile {} .standard .empty manyFlags).toOption.isSome &&
      (solvedModel {} .standard manyFlags).toOption.any fun x =>
        x.2.definitions.toOption = some [("root_t", .object 1)] &&
        decide (∀ r ∈ x.2.rows.toList, r.kind = .array ∨ r.kind = .dictionary → r.count ≠ 0 → r.countWord ≠ 0) &&
        (x.2.structDeclaration "root_t" 1).toOption.any fun s =>
          s.fields = [("wide", .named "u64"), ("f0", .named "u32"), ("f32", .named "u32"), ("small", .named "u8")] &&
          s.getters.length = 36 && s.getters[34]? = some (.bit "f33" "f32" 1)) = true := by
    decide +kernel
  simp only [Option.any_eq_true, Option.isSome_iff_exists, Bool.and_eq_true, decide_eq_true_eq,
    toOption_eq_some, Prod.exists] at hcheck
  obtain ⟨⟨result, hcompile⟩, root, m, hsolved, ⟨hds, hcounts⟩, s, hstruct, ⟨hfields, hlength⟩, hlast⟩ := hcheck
  obtain ⟨root', walked, m', passes, place, d, made, ds, hwalk, hsolve, -, hcode, hds', -, hlink, hexact, hall⟩ :=
    compile_readsBooleans hcompile
  obtain ⟨rfl, rfl⟩ := Prod.mk.inj
    (Except.ok.inj (hsolved.symm.trans (solvedModel_eq_ok.mpr ⟨walked, passes, hwalk, hsolve⟩)))
  obtain rfl := Except.ok.inj (hds.symm.trans hds')
  obtain ⟨i, object, s', span, getters, bit, hobject, hplace, hstruct', -, -, -, hflatten, hreads, hmade, hwords⟩ :=
    hall "root_t" 1 (List.mem_singleton_self _)
  obtain rfl := Except.ok.inj (hstruct.symm.trans hstruct')
  obtain ⟨reference, hmade⟩ := hmade.resolve_left (by
    rintro ⟨i, row, hrow, hkind, hcount, hword⟩
    exact hcounts row (List.mem_of_getElem? (Model.row_eq_ok.mp hrow)) hkind hcount hword)
  obtain ⟨block, hblock, hreference, hholds⟩ := hwords reference hmade
  exact ⟨place, bit, result, root, walked, m, passes, d, made, i, object, s, span, getters, reference, block, hcompile,
    hwalk, hsolve, hcode, hlink, hobject, hplace, hstruct, hfields, hlength, hlast, hflatten, hreads, hmade, hexact,
    hblock, hreference, hholds⟩

end Options

end ObjectPack
