import ObjectPack.Proofs.Compile.Exact
import ObjectPack.Proofs.Interface.Fields
import ObjectPack.Proofs.Walk.Occurrence

/-!
# Structs that fit all objects of their class

A generated interface has one struct for all objects of a class, taken from the first one of them
(`Model.object_of_definitions`).  Where the fields of all objects of a class are declared alike and show alike,
the struct fits each of them: in the solved model they have the same members at the same offsets
(`Options.solvedModel_structsFit`).

Fields that are declared alike need not show alike.  What becomes of a field goes by its value: one whose type is
not supported is left out unless its value is supported (`Options.exists_misfit`), and a reference bears the
class of its object.
-/

namespace ObjectPack

open Outcome Interface Packing

namespace Model

variable {m : Model} {i k : Nat} {name : String} {ds : Definitions}

/-- Whether the struct of a class fits every object of the class: all of them have the same members, so they
have the members that the struct declares. -/
structure StructsFit (m : Model) : Prop where
  same : ∀ i j a b, m.IsObject i a → m.IsObject j b → a.value.isNull = false → b.value.isNull = false →
    a.typeName = b.typeName → m.SameMembers i j
  declared : ∀ ds name k s, m.definitions = .ok ds → (name, .object k) ∈ ds →
    m.structDeclaration name k = .ok s → ∀ i a, m.IsObject i a → a.value.isNull = false →
      a.typeName = some name → m.declaredFields i = .ok s.fields ∧ m.memberOffsets i = m.memberOffsets k

theorem mem_of_mem_add {d : String × Definition} {name : String} {new : Definition} (h : d ∈ ds.add name new) :
    d ∈ ds ∨ d = (name, new) := by
  unfold Definitions.add at h
  split at h
  · exact Or.inl h
  · exact (List.mem_append.mp h).imp_right List.mem_singleton.mp

/-- A struct is defined by an object of its class that is there. -/
theorem object_of_definitions (h : m.definitions = .ok ds) (mem : (name, .object k) ∈ ds) :
    ∃ b, m.IsObject k b ∧ b.value.isNull = false ∧ b.typeName = some name := by
  let P : Definitions → Prop := fun ds => ∀ name k, (name, .object k) ∈ ds →
    ∃ b, m.IsObject k b ∧ b.value.isNull = false ∧ b.typeName = some name
  suffices hall : P ds from hall name k mem
  refine foldlM_keeps (P := P) (fun ds i ds' hds hadd => ?_) (fun _ _ hmem => absurd hmem List.not_mem_nil) h
  unfold addDefinition at hadd
  obtain ⟨row, hrow, hadd⟩ := bind_eq_ok.mp hadd
  split at hadd
  · split at hadd
    · obtain rfl := pure_eq_ok.mp hadd
      intro name k hmem
      rcases mem_of_mem_add hmem with hmem | heq
      · exact hds name k hmem
      · cases heq
    · obtain rfl := pure_eq_ok.mp hadd
      exact hds
  · rename_i hkind
    split at hadd
    · obtain rfl := pure_eq_ok.mp hadd
      exact hds
    · rename_i hpresent
      simp only [bind_eq_ok, pure_eq_ok] at hadd
      obtain ⟨typeName, htypeName, rfl⟩ := hadd
      intro name k hmem
      rcases mem_of_mem_add hmem with hmem | heq
      · exact hds name k hmem
      · cases heq
        exact ⟨row, ⟨hrow, hkind⟩, Bool.eq_false_iff.mpr hpresent, (requireTypeName_eq_ok hrow).mp htypeName⟩
  · obtain rfl := pure_eq_ok.mp hadd
    exact hds

/-- Where all objects of a class have the same members, structs fit. -/
theorem structsFit_of_same (same : ∀ i j a b, m.IsObject i a → m.IsObject j b → a.value.isNull = false →
    b.value.isNull = false → a.typeName = b.typeName → m.SameMembers i j) : m.StructsFit where
  same := same
  declared := by
    intro ds name k s hds hmem hstruct i a ha hpresent hname
    obtain ⟨b, hb, hpresent', hname'⟩ := object_of_definitions hds hmem
    obtain ⟨fields, hi, hk, hoffsets⟩ :=
      same i k a b ha hb hpresent hpresent' (hname.trans hname'.symm)
    obtain rfl := Except.ok.inj (hk.symm.trans (structDeclaration_fields hstruct))
    exact ⟨hi, hoffsets⟩

end Model

namespace Walk

variable {r : Rules} {m m' : Model} {origins : List Origin} {place : Nat → Nat} {passes top : Nat}

/-- Where the fields of all objects of a class show alike, structs fit the objects of a solved model. -/
theorem Pictures.structsFit (h : Pictures r m origins) (solved : m.Solved m' passes place)
    (whole : m.Whole top) (ordered : m.Ordered) (reserved : m.Reserved) (small : m.size < Model.indexLimit)
    (alike : ∀ o ∈ origins, ∀ o' ∈ origins, ∀ a b, o.value = some (.object a) →
      o'.value = some (.object b) → Naming.typeName a.typeName = Naming.typeName b.typeName →
      List.Forall₂ r.FieldsAlike a.fields b.fields) : m'.StructsFit := by
  -- The objects of the solved model are those that the graph is pictured with.
  have hobject : ∀ i a, m'.IsObject i a → a.value.isNull = false → ∃ k o, m.IsObject k o ∧
      o.value.isNull = false ∧ place k = i ∧ a = m.foldedRow o ∧ a.typeName = o.typeName := by
    intro i a ha hpresent
    obtain ⟨k, o, ho, rfl⟩ := solved.objects i a ha
    obtain rfl := Except.ok.inj (ha.1.symm.trans (solved.row k o ho.1))
    rw [Model.foldedRow_value] at hpresent
    exact ⟨k, o, ho, hpresent, rfl, rfl, Model.foldedRow_typeName m o⟩
  refine Model.structsFit_of_same fun i j a b ha hb hpresent hpresent' htype => ?_
  obtain ⟨k, o, ho, hthere, rfl, rfl, hname⟩ := hobject i a ha hpresent
  obtain ⟨k', o', ho', hthere', rfl, rfl, hname'⟩ := hobject j b hb hpresent'
  obtain ⟨origin, horigin, value, fields, start, hvalue, hshows⟩ := h.showsObject ho hthere
  obtain ⟨origin', horigin', value', fields', start', hvalue', hshows'⟩ := h.showsObject ho' hthere'
  have hnames : Naming.typeName value.typeName = Naming.typeName value'.typeName := by
    apply Option.some.inj
    rw [← hshows.typeName, ← hshows'.typeName, ← hname, ← hname', htype]
  have hfields := hshows.alike hshows' h solved reserved small solved.size_le
    (alike _ horigin _ horigin' _ _ hvalue hvalue' hnames)
  obtain ⟨hmembers, hrows⟩ := solved.members whole ho hshows.begins
  obtain ⟨hmembers', hrows'⟩ := solved.members whole ho' hshows'.begins
  exact Model.sameMembers_of_alike hmembers hmembers' hrows hrows'
    (solved.fields_alike whole ordered ho ho' hfields)

end Walk

namespace Options

variable {o : Options} {classifier : Classifier} {unit : DataUnit} {root : Nat} {m : Model}

/-- Where the fields of any two objects that share a struct are declared alike and show alike, the struct fits
all of its objects: they have the same members, by names and types, at the same offsets. -/
theorem solvedModel_structsFit (solved : o.solvedModel classifier unit = .ok (root, m))
    (small : m.size < Model.indexLimit)
    (alike : ∀ a ∈ (Value.dataUnit unit).objects, ∀ b ∈ (Value.dataUnit unit).objects,
      Naming.typeName a.typeName = Naming.typeName b.typeName →
      List.Forall₂ (o.rules classifier).FieldsAlike a.fields b.fields) : m.StructsFit := by
  obtain ⟨m₀, passes, hwalk, hsolve⟩ := solvedModel_eq_ok.mp solved
  have hwhole := Walk.Rules.walk_whole hwalk
  have hordered := Walk.Rules.walk_ordered hwalk
  obtain ⟨origins, hpictures, hobjects⟩ := Walk.Rules.walk_pictures_objects hwalk
  obtain ⟨place, hsolved⟩ := Model.solve_solved hwhole hordered hsolve
  refine hpictures.structsFit hsolved hwhole hordered (Walk.Rules.walk_reserved hwalk)
    (Nat.lt_of_le_of_lt hsolved.size_le small) ?_
  intro origin horigin origin' horigin' a b ha hb hname
  exact alike a (hobjects origin horigin a ha) b (hobjects origin' horigin' b hb) hname

/-- What a data unit is compiled to: its interface has one struct for all objects of a class, and where the fields
of any two objects that share a struct are declared alike and show alike, the struct fits all of its objects.
Every block that is packed for one of them holds the fields that the struct declares, in their order and at the
offsets of the struct. -/
theorem compile_structsFit {registry : Registry} {result : CompiledUnit}
    (compiled : o.compile classifier registry unit = .ok result)
    (small : ∀ root m, o.solvedModel classifier unit = .ok (root, m) → m.size < Model.indexLimit)
    (alike : ∀ a ∈ (Value.dataUnit unit).objects, ∀ b ∈ (Value.dataUnit unit).objects,
      Naming.typeName a.typeName = Naming.typeName b.typeName →
      List.Forall₂ (o.rules classifier).FieldsAlike a.fields b.fields) :
    ∃ root m d made, o.solvedModel classifier unit = .ok (root, m) ∧ m.StructsFit ∧
      m.interface o.style = .ok result.code ∧ d.link = .ok result.data ∧ ModelExact m registry d made ∧
      ∀ ds name k s, m.definitions = .ok ds → (name, .object k) ∈ ds → m.structDeclaration name k = .ok s →
        ∀ e ∈ made, ∀ a, m.IsObject e.2 a → a.value.isNull = false → a.typeName = some name →
          ∃ block ∈ d.blocks, block.reference = e.1 ∧ ∃ body span starts, block.body = some body ∧
            m.members e.2 = .ok span ∧ m.declaredFields e.2 = .ok s.fields ∧
            m.memberOffsets k = .ok starts ∧
            BodyExact m registry ⟨fun r i => (r, i) ∈ made, fun _ => True, fun _ => True⟩ d body span
              starts := by
  unfold compile at compiled
  simp only [bind_eq_ok, pure_eq_ok, Prod.exists] at compiled
  obtain ⟨root, m, hsolved, data, hpacked, code, hcode, rfl⟩ := compiled
  have hfit := solvedModel_structsFit hsolved (small root m hsolved) alike
  obtain ⟨d, hdraft, hlink⟩ := exists_draft hpacked
  have hwhole := solvedModel_whole hsolved
  obtain ⟨made, hexact⟩ := packFrom_exact hwhole.fits hwhole.objects hwhole.texts hdraft
  refine ⟨root, m, d, made, hsolved, hfit, mapError_eq_ok.mp hcode, hlink, hexact, ?_⟩
  intro ds name k s hds hmem hstruct e he a ha hpresent hname
  obtain ⟨hfields, hoffsets⟩ := hfit.declared ds name k s hds hmem hstruct e.2 a ha hpresent hname
  obtain ⟨block, hblock, hreference, -, size, body, span, starts, -, -, hbody, hmembers, hstarts, hrows, -⟩ :=
    hexact.exact e he
  exact ⟨block, hblock, hreference, body, span, starts, hbody, hmembers, hfields, hoffsets ▸ hstarts, hrows⟩

/-- Two objects of one class with different values: their booleans are folded, lists of animals are empty or mixed,
one has a friend and the other none, and a field that neither supports is left out of both. -/
def alikeItems : DataUnit :=
  let animals : List Value := [.object ⟨"Cat", []⟩, .object ⟨"Dog", []⟩]
  let item (on : Bool) (list : List Value) (friend : Value) : Value := .object ⟨"Item", [⟨"m_on", .bool, .bool on⟩,
    ⟨"m_small", .scalar .u8, .scalar (.u8 1)⟩, ⟨"m_tag", .foreign "Handle", .null⟩,
    ⟨"m_list", .list (.object "Animal"), .sequence list⟩, ⟨"m_friend", .object "Friend", friend⟩,
    ⟨"m_off", .bool, .bool false⟩]⟩
  ⟨"alike", ⟨"Root", [⟨"m_items", .list (.object "Item"),
    .sequence [item true animals .null, item false [] (.object ⟨"Friend", []⟩)]⟩]⟩⟩

/-- Both items have the same four fields: a pointer, a list that is known by the class that it declares, the word of
the booleans, and the number. -/
theorem compile_structsFit_alikeItems : ∃ result root m d made s,
    compile {} .standard .empty alikeItems = .ok result ∧
    solvedModel {} .standard alikeItems = .ok (root, m) ∧ m.StructsFit ∧ d.link = .ok result.data ∧
    ModelExact m .empty d made ∧
    (m.rows.toList.map (fun r => (r.kind, r.typeName, r.start, r.count))).take 5 =
      [(.dataUnit, some "root_t", some 1, 1), (.object, some "root_t", some 2, 1),
        (.array, none, some 3, 2), (.object, some "item_t", some 5, 4), (.object, some "item_t", some 10, 4)] ∧
    m.structDeclaration "item_t" 3 = .ok s ∧ s.fields = [("friend", .pointer "friend_t"),
      ("list", .array (.pointer "animal_t")), ("on", .named "u32"), ("small", .named "u8")] ∧
    m.declaredFields 4 = .ok s.fields ∧ m.memberOffsets 3 = .ok [0, 8, 24, 28] ∧
    m.memberOffsets 4 = .ok [0, 8, 24, 28] := by
  have hcheck : ((compile {} .standard .empty alikeItems).toOption.isSome &&
      (solvedModel {} .standard alikeItems).toOption.any fun x => x.2.size < 64 &&
        (x.2.rows.toList.map (fun r => (r.kind, r.typeName, r.start, r.count))).take 5 =
          [(.dataUnit, some "root_t", some 1, 1), (.object, some "root_t", some 2, 1),
            (.array, none, some 3, 2), (.object, some "item_t", some 5, 4),
            (.object, some "item_t", some 10, 4)] &&
        ((x.2.structDeclaration "item_t" 3).toOption.any fun s =>
          s.fields = [("friend", .pointer "friend_t"), ("list", .array (.pointer "animal_t")),
            ("on", .named "u32"), ("small", .named "u8")] &&
          (x.2.declaredFields 4).toOption = some s.fields) &&
        (x.2.memberOffsets 3).toOption = some [0, 8, 24, 28] &&
        (x.2.memberOffsets 4).toOption = some [0, 8, 24, 28]) = true := by
    decide +kernel
  simp only [Option.any_eq_true, Option.isSome_iff_exists, Bool.and_eq_true, decide_eq_true_eq,
    toOption_eq_some, Prod.exists] at hcheck
  obtain ⟨⟨result, hcompile⟩, root, m, hsolved, ⟨⟨⟨hsize, hrows⟩, s, hstruct, hfields, hdeclared⟩, hfirst⟩,
    hsecond⟩ := hcheck
  have hsmall : ∀ root' m', solvedModel {} .standard alikeItems = .ok (root', m') →
      m'.size < Model.indexLimit := by
    intro root' m' h
    obtain ⟨rfl, rfl⟩ := Prod.mk.inj (Except.ok.inj (hsolved.symm.trans h))
    exact Nat.lt_trans hsize (by decide)
  obtain ⟨root', m', d, made, hsolved', hfit, -, hlink, hexact, -⟩ :=
    compile_structsFit hcompile hsmall (by decide +kernel)
  obtain ⟨rfl, rfl⟩ := Prod.mk.inj (Except.ok.inj (hsolved.symm.trans hsolved'))
  exact ⟨result, root, m, d, made, s, hcompile, hsolved, hfit, hlink, hexact, hrows, hstruct, hfields, hdeclared,
    hfirst, hsecond⟩

/-- Two objects of one class whose fields are declared alike: the value of a field whose type is not supported is
null in the first one and a number in the second one. -/
def oddTags : DataUnit :=
  let item (tag : Value) (kind : UInt8) : Value := .object ⟨"Item", [⟨"m_tag", .foreign "Handle", tag⟩,
    ⟨"m_kind", .scalar .u8, .scalar (.u8 kind)⟩]⟩
  ⟨"tags", ⟨"Root", [⟨"m_items", .list (.object "Item"),
    .sequence [item .null 1, item (.scalar (.u32 7)) 2]⟩]⟩⟩

/-- The struct of the class, taken from the first object, has one field; the second object has two, and its number
stands elsewhere. -/
theorem exists_misfit : ∃ result root m a b s,
    compile {} .standard .empty oddTags = .ok result ∧ solvedModel {} .standard oddTags = .ok (root, m) ∧
    (∀ a ∈ (Value.dataUnit oddTags).objects, ∀ b ∈ (Value.dataUnit oddTags).objects,
      Naming.typeName a.typeName = Naming.typeName b.typeName →
      a.fields.map (fun f => (f.name, f.ty)) = b.fields.map (fun f => (f.name, f.ty))) ∧
    m.IsObject 3 a ∧ m.IsObject 4 b ∧ a.value = .present ∧ b.value = .present ∧
    a.typeName = some "item_t" ∧ b.typeName = some "item_t" ∧ m.structDeclaration "item_t" 3 = .ok s ∧
    s.fields = [("kind", .named "u8")] ∧
    m.declaredFields 4 = .ok [("tag", .named "u32"), ("kind", .named "u8")] ∧
    m.memberOffsets 3 = .ok [0] ∧ m.memberOffsets 4 = .ok [0, 4] ∧ ¬ m.StructsFit := by
  have hcheck : ((compile {} .standard .empty oddTags).toOption.isSome &&
      (solvedModel {} .standard oddTags).toOption.any fun x =>
        ((x.2.row 3).toOption.any fun a => a.kind = .object && a.value = .present && a.typeName = some "item_t") &&
        ((x.2.row 4).toOption.any fun b => b.kind = .object && b.value = .present && b.typeName = some "item_t") &&
        ((x.2.structDeclaration "item_t" 3).toOption.any fun s => s.fields = [("kind", .named "u8")]) &&
        (x.2.declaredFields 4).toOption = some [("tag", .named "u32"), ("kind", .named "u8")] &&
        (x.2.memberOffsets 3).toOption = some [0] && (x.2.memberOffsets 4).toOption = some [0, 4]) = true := by
    decide +kernel
  simp only [Option.any_eq_true, Option.isSome_iff_exists, Bool.and_eq_true, decide_eq_true_eq,
    toOption_eq_some, Prod.exists] at hcheck
  obtain ⟨⟨result, hcompile⟩, root, m, hsolved, ⟨⟨⟨⟨⟨a, ha, ⟨hakind, hapresent⟩, haname⟩, b, hb,
    ⟨hbkind, hbpresent⟩, hbname⟩, s, hstruct, hfields⟩, hdeclared⟩, hfirst⟩, hsecond⟩ := hcheck
  refine ⟨result, root, m, a, b, s, hcompile, hsolved, by decide +kernel, ⟨ha, hakind⟩, ⟨hb, hbkind⟩, hapresent,
    hbpresent, haname, hbname, hstruct, hfields, hdeclared, hfirst, hsecond, fun hfit => ?_⟩
  obtain ⟨-, -, -, hoffsets⟩ := hfit.same 3 4 a b ⟨ha, hakind⟩ ⟨hb, hbkind⟩ (by rw [hapresent]; rfl)
    (by rw [hbpresent]; rfl) (haname.trans hbname.symm)
  rw [hfirst, hsecond] at hoffsets
  cases hoffsets

end Options

end ObjectPack
