import ObjectPack.Compile
import ObjectPack.Proofs.Packing.Read
import ObjectPack.Proofs.Walk.Whole

/-!
# Compiled data units read back

A data unit is walked, the layout of the model is solved and the model is packed.  What comes out can be
opened, and a reader that knows the layout of the model finds the whole model in it
(`Options.pack_isReadBy`).
-/

namespace ObjectPack

open Outcome Packing

/-- Whether a reader finds a model in a container of a byte order.  Unit `unit` of the container is a
data unit of the model whose root object is row `roots unit`. -/
structure Model.IsReadBy (m : Model) (registry : Registry) (e : Endian) (reader : Container.Reader)
    (roots : Nat → Nat) : Prop where
  units : ∀ unit < reader.unitCount, ∃ s, m.HasUnit s (roots unit)
  blocks : ∀ unit < reader.unitCount, ∃ view, reader.unit? unit = some view ∧ view.endian = e ∧
    (∃ place, view.root? = some place) ∧
    ∀ owner base, m.Finds view (roots unit) owner base → m.ReadsBlock registry view owner base
  objects : ¬ LosesCount m → ∀ i, m.HasObject i → ∃ unit < reader.unitCount, ∃ view base,
    reader.unit? unit = some view ∧ m.Finds view (roots unit) i base

/-- A packed model is found in the container. -/
theorem Packing.ModelPacked.isReadBy {m : Model} {registry : Registry} {met : List Digest} {d : Draft}
    {reader : Container.Reader} {top : Nat} {row : Row} {signature : Digest}
    (packed : ModelPacked m registry met d) (whole : m.Whole top) (absolute : d.encoding = .absolute)
    (count : reader.unitCount = d.units.length) (views : ∀ unit < d.units.length, ∃ view,
      reader.unit? unit = some view ∧ d.Views unit view)
    (hrow : m.row top = .ok row) (value : row.value = .dataUnit signature)
    (known : signature ∈ met) : ∃ roots, m.IsReadBy registry d.endian reader roots := by
  have hread := fun {unit u} (hu : d.units[unit]? = some u) =>
    packed.read whole.fits absolute views hu
  have hmany : ∀ s ∈ met, ∃ (unit : Nat) (u : DraftUnit),
      d.units[unit]? = some u ∧ u.signature = s := by
    intro s hs
    obtain ⟨u, hu, hsignature⟩ := packed.complete s hs
    obtain ⟨unit, hunit⟩ := List.mem_iff_getElem?.mp hu
    exact ⟨unit, u, hunit, hsignature⟩
  -- The data unit of the top row is there, and with it a view.
  obtain ⟨_, _, hfirst, -⟩ := hmany signature known
  have hview : Nonempty Container.UnitReader := ⟨(hread hfirst).choose⟩
  have hunits : ∀ unit < reader.unitCount, ∃ (view : Container.UnitReader) (root : Nat)
      (u : DraftUnit), d.units[unit]? = some u ∧ reader.unit? unit = some view ∧
        view.endian = d.endian ∧ m.HasUnit u.signature root ∧
        UnitRead m registry met view root := by
    intro unit hunit
    have hu := List.getElem?_eq_getElem (count ▸ hunit)
    obtain ⟨view, root, hall⟩ := hread hu
    exact ⟨view, root, _, hu, hall⟩
  choose! views' roots units hu hviews hendian hroots hreads using hunits
  refine ⟨roots, fun unit hunit => ⟨_, hroots unit hunit⟩, fun unit hunit => ?_, ?_⟩
  · exact ⟨views' unit, hviews unit hunit, hendian unit hunit, (hreads unit hunit).found,
      (hreads unit hunit).blocks⟩
  · rintro hcounts i ⟨object, hobject, hkind, hpresent⟩
    have hreached := whole.complete i ⟨object, hobject, hkind, hpresent⟩
    have hcomplete : ∀ s ∈ met, ∃ unit < reader.unitCount, m.HasUnit s (roots unit) := by
      intro s hs
      obtain ⟨unit, u, hunit, rfl⟩ := hmany s hs
      have hlt : unit < reader.unitCount := count ▸ (List.getElem?_eq_some_iff.mp hunit).1
      have hsame := hu unit hlt
      rw [hunit] at hsame
      rw [Option.some.inj hsame]
      exact ⟨unit, hlt, hroots unit hlt⟩
    obtain ⟨hfound, -⟩ := finds_of_reaches whole.toWellFormed hreads hcomplete
      ⟨row, signature, hrow, value, known⟩ hcounts hreached object hobject
    obtain ⟨unit, hunit, base, hfinds⟩ := hfound ⟨hpresent, Or.inl hkind⟩
    exact ⟨unit, hunit, views' unit, base, hviews unit hunit, hfinds⟩

namespace Options

variable {o : Options} {classifier : Classifier} {registry : Registry} {unit : DataUnit}
  {m : Model} {root : Nat} {container : PackedContainer}

/-- A solved model has been walked, and then its layout has been solved. -/
theorem solvedModel_eq_ok {solved : Model} : o.solvedModel classifier unit = .ok (root, solved) ↔
    ∃ m passes, (o.rules classifier).walk .empty unit = .ok (root, m) ∧ m.solve = .ok (solved, passes) := by
  unfold solvedModel walk
  simp only [bind_eq_ok, mapError_eq_ok, lift_eq_ok, pure_eq_ok, Prod.exists, Prod.mk.injEq]
  constructor
  · rintro ⟨_, m, hwalk, _, passes, hsolve, rfl, rfl⟩
    exact ⟨m, passes, hwalk, hsolve⟩
  · rintro ⟨m, passes, hwalk, hsolve⟩
    exact ⟨root, m, hwalk, solved, passes, hsolve, rfl, rfl⟩

/-- What is compiled has been solved and packed, and has the interface of the solved model. -/
theorem compile_eq_ok {made : CompiledUnit} : o.compile classifier registry unit = .ok made ↔
    ∃ root m, o.solvedModel classifier unit = .ok (root, m) ∧ o.pack registry m root = .ok made.data ∧
      o.interface m = .ok made.code := by
  unfold compile
  simp only [bind_eq_ok, pure_eq_ok, Prod.exists]
  constructor
  · rintro ⟨root, m, hsolved, data, hdata, code, hcode, rfl⟩
    exact ⟨root, m, hsolved, hdata, hcode⟩
  · rintro ⟨root, m, hsolved, hdata, hcode⟩
    exact ⟨root, m, hsolved, _, hdata, _, hcode, rfl⟩

/-- A solved model is whole. -/
theorem solvedModel_whole (h : o.solvedModel classifier unit = .ok (root, m)) : m.Whole root := by
  obtain ⟨walked, passes, hwalk, hsolve⟩ := solvedModel_eq_ok.mp h
  exact Model.solve_whole (Walk.Rules.walk_whole hwalk) hsolve

/-- A packed model is a linked draft. -/
theorem exists_draft (h : o.pack registry m root = .ok container) : ∃ d,
    packFrom m registry (.blank o.platform o.encoding m.supply) root = .ok d ∧
    d.link = .ok container := by
  unfold pack at h
  simp only [bind_eq_ok, lift_eq_ok, mapError_eq_ok, Prod.exists] at h
  obtain ⟨result, supply, hpack, rfl⟩ := h
  unfold Model.pack at hpack
  split at hpack
  · cases hpack
  · cases hpack
  · rename_i d hdraft
    split at hpack
    · cases hpack
    · cases hpack
    · rename_i linked hlink
      cases hpack
      exact ⟨d, hdraft, hlink⟩

/-- What a draft is linked to is the packed model. -/
theorem pack_of_draft {d : Draft}
    (packed : packFrom m registry (.blank o.platform o.encoding m.supply) root = .ok d)
    (linked : d.link = .ok container) : o.pack registry m root = .ok container := by
  unfold pack Model.pack
  rw [packed]
  dsimp only
  rw [linked]
  rfl

/-- What a data unit is compiled to holds its model. -/
theorem pack_isReadBy (absolute : o.encoding = .absolute)
    (solved : o.solvedModel classifier unit = .ok (root, m))
    (packed : o.pack registry m root = .ok container)
    (tell : ∀ d, packFrom m registry (.blank o.platform o.encoding m.supply) root = .ok d →
      ∀ i < d.units.length, Section.DigestsTell d.endian (d.sections i)) :
    ∃ reader roots, Container.Reader.ofBytes container.bytes = .ok reader ∧
      m.IsReadBy registry o.platform.endian reader roots := by
  have hwhole := solvedModel_whole solved
  obtain ⟨d, hpack, hlink⟩ := exists_draft packed
  obtain ⟨row, signature, met, hrow, hvalue, hmet, hpacked, hmoves⟩ :=
    packFrom_packed hwhole.fits hwhole.objects hwhole.texts hpack
  have hencoding : d.encoding = o.encoding := hmoves.encoding_eq rfl
  have hencoded : d.EncodedIn (· = d.encoding) := by
    rw [hencoding]
    exact hmoves.encodedIn fun block hblock => absurd hblock List.not_mem_nil
  have hendian : d.endian = o.platform.endian := hmoves.endian_eq
  obtain ⟨reader, hreader, hcount, hviews⟩ :=
    Draft.link_views hpacked.valid hencoded (tell d hpack) hlink
  obtain ⟨roots, hroots⟩ := hpacked.isReadBy hwhole (hencoding.trans absolute) hcount hviews hrow
    hvalue hmet
  exact ⟨reader, roots, hreader, hendian ▸ hroots⟩

/-- A data unit with two equal objects in an array. -/
def twoPairs : DataUnit :=
  let pair : Value := .object ⟨"Pair", [⟨"m_count", .scalar .u32, .scalar (.u32 7)⟩,
    ⟨"m_name", .string, .text "a"⟩]⟩
  ⟨"pairs", ⟨"Root", [⟨"m_shown", .bool, .bool true⟩,
    ⟨"m_pairs", .array (.object "Pair"), .sequence [pair, pair]⟩]⟩⟩

/-- The two objects are merged, and all three objects are found. -/
theorem pack_isReadBy_twoPairs : ∃ root m container reader roots,
    solvedModel { encoding := .absolute } .standard twoPairs = .ok (root, m) ∧
    pack { encoding := .absolute } .empty m root = .ok container ∧
    container.units.map (·.merged) = [1] ∧ m.objects.length = 3 ∧ ¬ LosesCount m ∧
    (∀ d, packFrom m .empty (.blank .win64 .absolute m.supply) root = .ok d →
      ∀ i < d.units.length, Section.DigestsTell d.endian (d.sections i)) ∧
    Container.Reader.ofBytes container.bytes = .ok reader ∧
    m.IsReadBy .empty .little reader roots := by
  have hcheck : (solvedModel { encoding := .absolute } .standard twoPairs).toOption.any (fun x =>
      (pack { encoding := .absolute } .empty x.2 x.1).toOption.any (fun container =>
        container.units.map (·.merged) = [1]) && x.2.objects.length = 3 &&
      decide (∀ r ∈ x.2.rows.toList, r.kind = .array ∨ r.kind = .dictionary → r.count ≠ 0 →
        r.countWord ≠ 0) &&
      (packFrom x.2 .empty (.blank .win64 .absolute x.2.supply) x.1).toOption.any fun d =>
        d.units.length = 1 && Section.digestsTell d.endian 3 (d.sections 0)) = true := by
    decide +kernel
  simp only [Option.any_eq_true, Bool.and_eq_true, decide_eq_true_eq, toOption_eq_some,
    Prod.exists] at hcheck
  obtain ⟨root, m, hsolved, ⟨⟨⟨container, hpacked, hmerged⟩, hobjects⟩, hcounts⟩, d, hd, hunits,
    htell⟩ := hcheck
  have hdigests : ∀ d, packFrom m .empty (.blank .win64 .absolute m.supply) root = .ok d →
      ∀ i < d.units.length, Section.DigestsTell d.endian (d.sections i) := by
    intro d' hd' i hi
    rw [hd] at hd'
    cases hd'
    obtain rfl : i = 0 := by omega
    exact Section.digestsTell_of_check htell
  obtain ⟨reader, roots, hreader, hreads⟩ := pack_isReadBy rfl hsolved hpacked hdigests
  refine ⟨root, m, container, reader, roots, hsolved, hpacked, hmerged, hobjects, ?_, hdigests,
    hreader, hreads⟩
  rintro ⟨i, row, hrow, hkind, hcount, hword⟩
  exact hcounts row (List.mem_of_getElem? (Model.row_eq_ok.mp hrow)) hkind hcount hword

end Options

end ObjectPack
