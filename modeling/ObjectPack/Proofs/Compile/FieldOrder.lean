import ObjectPack.Proofs.Compile.Supply
import ObjectPack.Proofs.Walk.Mirrored

/-!
# The order of fields

Fields become rows in the order in which they are declared, or in the order of their types; solving the layout then
sorts them by alignment, kind and name.  Booleans are folded into words before that, in the order of their rows, so
the order of fields shows in which bit a boolean is and in what a word is called
(`Options.exists_container_ne`).  Where it leaves booleans as they are declared, it does not show at all
(`Options.container_inOrder`).
-/

namespace ObjectPack

open Outcome Packing Walk

namespace Options

variable {o : Options} {classifier : Classifier} {registry : Registry} {unit : DataUnit} {order : MemberOrder}
  {c : PackedContainer}

/-- The container of a data unit. -/
def container (o : Options) (classifier : Classifier) (registry : Registry) (unit : DataUnit) :
    Except (Failure CompileError) PackedContainer := do
  let (root, m) ← o.solvedModel classifier unit
  o.pack registry m root

/-- The same options, but for the order of fields. -/
def inOrder (o : Options) (order : MemberOrder) : Options := { o with order := order }

/-- What is compiled has the container of the data unit. -/
theorem container_of_compile {made : CompiledUnit} (h : o.compile classifier registry unit = .ok made) :
    o.container classifier registry unit = .ok made.data := by
  obtain ⟨root, m, hsolved, hdata, -⟩ := compile_eq_ok.mp h
  exact bind_eq_ok.mpr ⟨_, hsolved, hdata⟩

/-- Whether nothing of a data unit can tell the orders of fields from one another: fields of one object go by
different names, booleans are declared in the order of their types, data units are told apart by their digests and
texts by their checksums, and what is compiled stays in its limits. -/
structure HidesOrder (o : Options) (classifier : Classifier) (registry : Registry) (unit : DataUnit) : Prop where
  ties : ∀ object, (Value.object object).In (.dataUnit unit) → (o.rules classifier).TiesOnly object
  units : Rules.DigestsTellUnits (.dataUnit unit)
  texts : ∀ a b, (Value.text a).In (.dataUnit unit) → (Value.text b).In (.dataUnit unit) →
    Checksum.crc32 (.ofText a) = Checksum.crc32 (.ofText b) → a = b
  /-- The rows of walked models have indices. -/
  small : ∀ order root m, (o.inOrder order).walk classifier unit = .ok (root, m) → m.size < Model.indexLimit
  /-- Digests tell blocks apart. -/
  suffice : ∀ order root m d, (o.inOrder order).solvedModel classifier unit = .ok (root, m) →
    packFrom m registry (.blank o.platform o.encoding m.supply) root = .ok d → d.DigestsSuffice

theorem HidesOrder.inOrder (h : o.HidesOrder classifier registry unit) (order : MemberOrder) :
    (o.inOrder order).HidesOrder classifier registry unit where
  ties object hin := (h.ties object hin).inOrder order
  units := h.units
  texts := h.texts
  small := h.small
  suffice := h.suffice

/-- What a data unit is packed into in one order of fields, it is packed into in another one under other names. -/
theorem HidesOrder.packs_inOrder (h : o.HidesOrder classifier registry unit) (order : MemberOrder) {root : Nat} {m₁ : Model}
    (solved : o.solvedModel classifier unit = .ok (root, m₁)) : ∃ m₁',
      (o.inOrder order).solvedModel classifier unit = .ok (root, m₁') ∧ Follows (Draft.Renamed (m₁.texts.transfer m₁'.texts) 0)
        (packFrom m₁ registry (.blank o.platform o.encoding m₁.supply) root)
        (packFrom m₁' registry (.blank o.platform o.encoding m₁'.supply) root) := by
  obtain ⟨m, passes, hwalk, hsolve⟩ := solvedModel_eq_ok.mp solved
  obtain ⟨m', hwalk', hpools'⟩ := Rules.walk_reordered hwalk h.units order
  -- Walking back in the first order of fields shows that nothing of the pool has been lost.
  obtain ⟨_, hback, hpools⟩ := Rules.walk_reordered hwalk' h.units o.order
  obtain rfl := (Prod.mk.inj (Except.ok.inj (hwalk.symm.trans hback))).2
  have hsmall : ∀ order m, ((o.inOrder order).rules classifier).walk .empty unit = .ok (root, m) →
      m.size < Model.indexLimit := fun order m hwalked => by
    refine h.small order root m ?_
    rw [walk, hwalked]
    rfl
  obtain ⟨⟨m₁', passes'⟩, hsolve', -⟩ := (Rules.walk_solvable hwalk').1.exists_solve (hsmall order m' hwalk')
  obtain ⟨origins, n, place, hlaid⟩ := Rules.exists_laid hwalk (hsmall o.order m hwalk) hsolve
  obtain ⟨origins', n', place', hlaid'⟩ := Rules.exists_laid hwalk' (hsmall order m' hwalk') hsolve'
  have hpooled : ∀ {t}, t ∈ m₁.texts.entries → (Value.text t.text).In (.dataUnit unit) := fun {t} ht =>
    Rules.walk_texts hwalk ⟨t, hlaid.texts ▸ ht, rfl⟩
  refine ⟨m₁', solvedModel_eq_ok.mpr ⟨m', passes', hwalk', hsolve'⟩, ?_⟩
  refine hlaid.packFrom_follows hlaid' h.ties h.units (fun t ht t' ht' hsame => ?_) (fun text => ?_) registry _ _
  · exact h.texts _ _ (hpooled ht) (hpooled ht') hsame
  · show (∃ t ∈ m₁.texts.entries, _) ↔ ∃ t ∈ m₁'.texts.entries, _
    rw [hlaid.texts, hlaid'.texts]
    exact ⟨hpools text, hpools' text⟩

/-- What is packed in one order of fields is packed in another one. -/
theorem HidesOrder.container_follows (h : o.HidesOrder classifier registry unit) (order : MemberOrder) :
    Follows Eq (o.container classifier registry unit) ((o.inOrder order).container classifier registry unit) := by
  intro c hc
  obtain ⟨⟨root, m₁⟩, hsolved, hpack⟩ := bind_eq_ok.mp hc
  obtain ⟨m₁', hsolved', hfollows⟩ := h.packs_inOrder order hsolved
  obtain ⟨d, hpacked, hlinked⟩ := exists_draft hpack
  obtain ⟨d', hpacked', hrenamed⟩ := hfollows d hpacked
  obtain ⟨hvalid, hnumbered⟩ := packFrom_valid (s := .full) hsolved hpacked
  obtain ⟨hvalid', hnumbered'⟩ := packFrom_valid (o := o.inOrder order) (s := .full) hsolved' hpacked'
  obtain ⟨_, hlinked', rfl⟩ := hrenamed.link hvalid hvalid' hnumbered hnumbered'
    (h.suffice o.order root m₁ d hsolved hpacked) (h.suffice order root m₁' d' hsolved' hpacked') c hlinked
  exact ⟨c, bind_eq_ok.mpr ⟨_, hsolved', pack_of_draft hpacked' hlinked'⟩, rfl⟩

/-- **The order of fields decides nothing but ties** where booleans are declared in the order of their types: a data
unit has the same container in one order as in another one, or none in either. -/
theorem container_inOrder (h : o.HidesOrder classifier registry unit) (order : MemberOrder) (c : PackedContainer) :
    (o.inOrder order).container classifier registry unit = .ok c ↔ o.container classifier registry unit = .ok c := by
  constructor
  · intro hc
    obtain ⟨_, hc', rfl⟩ := (h.inOrder order).container_follows o.order c hc
    exact hc'
  · intro hc
    obtain ⟨_, hc', rfl⟩ := h.container_follows order c hc
    exact hc'

/-- An object with booleans among fields whose types are declared in another order than that of their names. -/
def signpost : Object :=
  ⟨"Sign", [⟨"m_shown", .bool, .bool true⟩, ⟨"m_title", .nullable .string, .text "north"⟩,
    ⟨"m_lit", .nullable .bool, .bool false⟩, ⟨"m_alias", .string, .text "up"⟩]⟩

/-- A data unit with such an object. -/
def crossing : DataUnit :=
  ⟨"crossing", ⟨"Root", [⟨"m_name", .string, .text "inn"⟩, ⟨"m_sign", .object "Sign", .object signpost⟩,
    ⟨"m_ways", .scalar .u8, .scalar (.u8 4)⟩]⟩⟩

/-- What occurs in the data unit. -/
theorem in_crossing {v : Value} (h : v.In (.dataUnit crossing)) : v ∈ [.dataUnit crossing, .object crossing.root,
    .text "inn", .object signpost, .scalar (.u8 4), .bool true, .text "north", .bool false, .text "up"] := by
  have hsign : v.In (.object signpost) → v ∈ [.object signpost, .bool true, .text "north", .bool false, .text "up"] := by
    intro h
    cases h with
    | self => exact List.mem_cons_self
    | field mem h =>
      simp only [signpost, List.mem_cons, List.not_mem_nil, or_false] at mem
      rcases mem with rfl | rfl | rfl | rfl <;> cases h <;> simp
  cases h with
  | self => exact List.mem_cons_self
  | root h =>
    cases h with
    | self => simp
    | field mem h =>
      simp only [crossing, List.mem_cons, List.not_mem_nil, or_false] at mem
      rcases mem with rfl | rfl | rfl
      · cases h
        simp
      · have hmem := hsign h
        simp only [List.mem_cons, List.not_mem_nil, or_false] at hmem ⊢
        tauto
      · cases h
        simp

/-- Nothing of the data unit tells the orders of fields from one another. -/
theorem crossing_hidesOrder : HidesOrder {} .standard .empty crossing := by
  have hwalk : ∀ order ∈ [MemberOrder.declaration, .typeName],
      (walk (inOrder {} order) .standard crossing).toOption.any (fun x => x.2.size < 100) = true := by
    decide +kernel
  have hdraft : ∀ order ∈ [MemberOrder.declaration, .typeName],
      (solvedModel (inOrder {} order) .standard crossing).toOption.any (fun x =>
        (packFrom x.2 .empty (.blank .win64 .chained x.2.supply) x.1).toOption.any fun d =>
          d.units.length = 1 && Section.digestsTell d.endian 5 (d.sections 0)) = true := by
    decide +kernel
  have horder : ∀ order : MemberOrder, order ∈ [MemberOrder.declaration, .typeName] := by
    rintro (_ | _) <;> decide
  simp only [Option.any_eq_true, Bool.and_eq_true, decide_eq_true_eq, toOption_eq_some, Prod.exists] at hwalk hdraft
  exact
    { ties := fun object h => by
        have hmem := in_crossing h
        simp only [List.mem_cons, List.not_mem_nil, or_false, reduceCtorEq, false_or, Value.object.injEq] at hmem
        rcases hmem with rfl | rfl <;> exact ⟨by decide, by decide +kernel⟩
      units := fun u u' h h' _ => by
        have hmem := in_crossing h
        have hmem' := in_crossing h'
        simp only [List.mem_cons, List.not_mem_nil, or_false, reduceCtorEq, Value.dataUnit.injEq] at hmem hmem'
        rw [hmem, hmem']
      texts := fun a b h h' => by
        have hmem := in_crossing h
        have hmem' := in_crossing h'
        simp only [List.mem_cons, List.not_mem_nil, or_false, reduceCtorEq, false_or, Value.text.injEq] at hmem hmem'
        rcases hmem with rfl | rfl | rfl <;> rcases hmem' with rfl | rfl | rfl <;> decide +kernel
      small := fun order root m h => by
        obtain ⟨_, m', hwalked, hlt⟩ := hwalk order (horder order)
        cases h.symm.trans hwalked
        exact Nat.lt_trans hlt (by decide)
      suffice := fun order root m d h hd => by
        obtain ⟨_, m', hsolved, d', hpacked, hunits, htell⟩ := hdraft order (horder order)
        cases h.symm.trans hsolved
        cases hd.symm.trans hpacked
        exact .of_check hunits htell }

/-- Where fields are ordered by their types, rows and texts come in another order; the container is the same. -/
theorem container_inOrder_crossing : HidesOrder {} .standard .empty crossing ∧ ∃ m m' c,
    walk {} .standard crossing = .ok (0, m) ∧ walk { order := .typeName } .standard crossing = .ok (0, m') ∧
      m.texts.entries.map (·.text) = ["inn", "north", "up"] ∧
      m'.texts.entries.map (·.text) = ["inn", "up", "north"] ∧
      container {} .standard .empty crossing = .ok c ∧
      container { order := .typeName } .standard .empty crossing = .ok c := by
  have hwalks : (walk {} .standard crossing).toOption.any (fun x =>
        x.1 = 0 && x.2.texts.entries.map (·.text) = ["inn", "north", "up"]) &&
      (walk { order := .typeName } .standard crossing).toOption.any (fun x =>
        x.1 = 0 && x.2.texts.entries.map (·.text) = ["inn", "up", "north"]) &&
      (container {} .standard .empty crossing).toOption.isSome = true := by
    decide +kernel
  simp only [Option.any_eq_true, Bool.and_eq_true, decide_eq_true_eq, Option.isSome_iff_exists, toOption_eq_some,
    Prod.exists] at hwalks
  obtain ⟨⟨⟨_, m, hwalk, rfl, htexts⟩, _, m', hwalk', rfl, htexts'⟩, c, hc⟩ := hwalks
  exact ⟨crossing_hidesOrder, m, m', c, hwalk, hwalk', htexts, htexts', hc,
    (container_inOrder crossing_hidesOrder .typeName c).mpr hc⟩

/-- A data unit with two booleans, of which only the first one may be missing. -/
def twoSwitches : DataUnit :=
  ⟨"order", ⟨"Root", [⟨"m_a", .nullable .bool, .bool true⟩, ⟨"m_b", .bool, .bool false⟩]⟩⟩

/-- The order of fields decides which bit each boolean is, in a data unit whose fields go by different names. -/
theorem exists_container_ne : (∀ object, (Value.object object).In (.dataUnit twoSwitches) →
      (object.fields.map fun f => Naming.stripMember f.name "m_").Nodup) ∧
    Rules.DigestsTellUnits (.dataUnit twoSwitches) ∧ (∀ text, ¬ (Value.text text).In (.dataUnit twoSwitches)) ∧
    ∃ made made', compile {} .standard .empty twoSwitches = .ok made ∧
      compile { order := .typeName } .standard .empty twoSwitches = .ok made' ∧ made.data.bytes ≠ made'.data.bytes := by
  have hin : ∀ {v : Value}, v.In (.dataUnit twoSwitches) →
      v ∈ [.dataUnit twoSwitches, .object twoSwitches.root, .bool true, .bool false] := by
    intro v h
    cases h with
    | self => exact List.mem_cons_self
    | root h =>
      cases h with
      | self => simp
      | field mem h =>
        simp only [twoSwitches, List.mem_cons, List.not_mem_nil, or_false] at mem
        rcases mem with rfl | rfl <;> cases h <;> simp
  have hcompiled : (compile {} .standard .empty twoSwitches).toOption.any (fun made =>
      (compile { order := .typeName } .standard .empty twoSwitches).toOption.any fun made' =>
        made.data.bytes ≠ made'.data.bytes) = true := by
    decide +kernel
  simp only [Option.any_eq_true, toOption_eq_some, decide_eq_true_eq] at hcompiled
  obtain ⟨made, hmade, made', hmade', hne⟩ := hcompiled
  refine ⟨fun object h => ?_, fun u u' h h' _ => ?_, fun text h => ?_, made, made', hmade, hmade', hne⟩
  · have hmem := hin h
    simp only [List.mem_cons, List.not_mem_nil, or_false, reduceCtorEq, false_or, Value.object.injEq] at hmem
    rw [hmem]
    decide
  · have hmem := hin h
    have hmem' := hin h'
    simp only [List.mem_cons, List.not_mem_nil, or_false, reduceCtorEq, Value.dataUnit.injEq] at hmem hmem'
    rw [hmem, hmem']
  · have hmem := hin h
    simp at hmem

end Options

end ObjectPack
