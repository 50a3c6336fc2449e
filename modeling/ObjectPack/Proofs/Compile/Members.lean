import ObjectPack.Proofs.Compile.Bits
import ObjectPack.Proofs.Interface.Members
import ObjectPack.Proofs.Walk.Twins

/-!
# Members of compiled structs

The members of a generated struct go by the names of the fields that its object has had, without the member prefix.
Fields of different names keep different names, unless one of them is the prefix and the name of the other, and the
other keeps its name (`Naming.stripMember_eq_iff`).  So that is when two members of a struct have one name, and only
then (`Options.compile_memberNames`); nothing checks that it does not happen (`Options.exists_twin_members`).
-/

namespace ObjectPack

open Outcome Interface

namespace Naming

variable {name lead rest a b : String}

/-- Whether a name is the prefix in front of another name, which stays as it is. -/
def Collides (lead a b : String) : Prop := a = lead ++ b ∧ lead ≠ "" ∧ b ≠ "" ∧ stripMember b lead = b

/-- A name loses the prefix if anything is left. -/
theorem stripMember_append (lead_ne : lead ≠ "") (rest_ne : rest ≠ "") : stripMember (lead ++ rest) lead = rest := by
  have hdrop : (lead ++ rest).toList.drop lead.length = rest.toList := by
    rw [String.toList_append, ← String.length_toList, List.drop_left]
  unfold stripMember
  dsimp only
  rw [hdrop, if_pos, String.ofList_toList]
  simp [String.toList_append, lead_ne, rest_ne]

/-- A name keeps all of itself, or what stands behind the prefix. -/
theorem stripMember_cases (name lead : String) : stripMember name lead = name ∨
    lead ≠ "" ∧ stripMember name lead ≠ "" ∧ name = lead ++ stripMember name lead := by
  by_cases h : lead.toList.isPrefixOf name.toList ∧ ¬ lead.isEmpty ∧ ¬ (name.toList.drop lead.length).isEmpty
  · obtain ⟨hfront, hlead, hrest⟩ := h
    obtain ⟨rest, hsplit⟩ := List.isPrefixOf_iff_prefix.mp hfront
    rw [← hsplit, ← String.length_toList, List.drop_left] at hrest
    obtain rfl : lead ++ String.ofList rest = name := by
      rw [← String.toList_inj, String.toList_append, String.toList_ofList, hsplit]
    have hlead : lead ≠ "" := fun h => hlead (String.isEmpty_iff.mpr h)
    have hrest : String.ofList rest ≠ "" := fun h => hrest (by simpa using h)
    rw [stripMember_append hlead hrest]
    exact Or.inr ⟨hlead, hrest, rfl⟩
  · exact Or.inl (if_neg h)

/-- Two names become one name iff one of them is the prefix in front of the other. -/
theorem stripMember_eq_iff (ne : a ≠ b) :
    stripMember a lead = stripMember b lead ↔ Collides lead a b ∨ Collides lead b a := by
  constructor
  · intro heq
    rcases stripMember_cases a lead with ha | ⟨hlead, hrest, ha⟩
    · rcases stripMember_cases b lead with hb | ⟨hlead, hrest, hb⟩
      · exact absurd (ha.symm.trans (heq.trans hb)) ne
      · rw [← heq, ha] at hrest hb
        exact Or.inr ⟨hb, hlead, hrest, ha⟩
    · rcases stripMember_cases b lead with hb | ⟨-, -, hb⟩
      · rw [heq, hb] at hrest ha
        exact Or.inl ⟨ha, hlead, hrest, hb⟩
      · exact absurd (ha.trans (heq ▸ hb.symm)) ne
  · rintro (⟨rfl, hlead, hrest, hb⟩ | ⟨rfl, hlead, hrest, ha⟩)
    · rw [stripMember_append hlead hrest, hb]
    · rw [stripMember_append hlead hrest, ha]

/-- Different names stay different iff none is the prefix in front of another one. -/
theorem nodup_stripMember_iff {α : Type} {key : α → String} {l : List α} (distinct : (l.map key).Nodup) :
    (l.map fun x => stripMember (key x) lead).Nodup ↔ ∀ x ∈ l, ∀ y ∈ l, ¬ Collides lead (key x) (key y) := by
  rw [List.nodup_map_iff_inj_on (List.Nodup.of_map key distinct)]
  constructor
  · intro hinj x hx y hy hcollides
    have hne : key x ≠ key y := by
      obtain ⟨heq, hlead, -⟩ := hcollides
      intro hsame
      have hlength := congrArg String.length (hsame.symm.trans heq)
      rw [String.length_append] at hlength
      exact hlead (String.length_eq_zero_iff.mp (by omega))
    exact hne (congrArg key (hinj x hx y hy ((stripMember_eq_iff hne).mpr (Or.inl hcollides))))
  · intro hapart x hx y hy heq
    by_contra hne
    have hkeys : key x ≠ key y := fun hsame => hne (List.inj_on_of_nodup_map distinct hx hy hsame)
    rcases (stripMember_eq_iff hkeys).mp heq with hcollides | hcollides
    · exact hapart x hx y hy hcollides
    · exact hapart y hy x hx hcollides

end Naming

namespace Walk

variable {r : Rules} {m m' : Model} {origins : List Origin} {place : Nat → Nat} {passes top i : Nat} {row : Row}
  {name : String} {s : StructDeclaration}

/-- Whether the members of a struct bear the names of the fields of an object. -/
structure Rules.NamesMembers (r : Rules) (object : Object) (s : StructDeclaration) : Prop where
  /-- There is a getter for each field that is usable. -/
  getters : (s.getters.map Getter.name).Perm ((object.fields.filter fun f => r.usable f.ty (some f.value)).map fun f =>
    Naming.stripMember f.name r.memberLead)
  /-- Fields of different names have members of different names, unless two of them collide. -/
  distinct : (object.fields.map (·.name)).Nodup → (s.memberNames.Nodup ↔ ∀ f ∈ object.fields, ∀ g ∈ object.fields,
    r.usable f.ty (some f.value) → r.usable g.ty (some g.value) → ¬ Naming.Collides r.memberLead f.name g.name)

/-- The members of the struct of an object that is there bear the names of its fields. -/
theorem Pictures.namesMembers (h : Pictures r m origins) (solved : m.Solved m' passes place) (whole : m.Whole top)
    (whole' : m'.Whole top) (ordered : m.Ordered) (object : m.IsObject i row) (present : row.value.isNull = false)
    (noWord : ∀ x r, m.row x = .ok r → r.kind ≠ .bitSet) (struct : m'.structDeclaration name (place i) = .ok s) :
    ∃ origin ∈ origins, ∃ value, origin.value = some (.object value) ∧
      row.typeName = some (Naming.typeName value.typeName) ∧ r.NamesMembers value s := by
  obtain ⟨origin, horigin, value, fields, start, hvalue, hshows⟩ := h.showsObject object present
  have hnames := hshows.map_name h
  have hkept : fields.Perm (value.fields.filter fun f => r.usable f.ty (some f.value)) := by
    rw [hshows.usable]
    exact (r.orderFields_perm value.fields).filter _
  have hstripped := hkept.map fun f => Naming.stripMember f.name r.memberLead
  have hword : ∀ x s, row.Owns x → m.row x = .ok s → s.kind ≠ .bitSet := fun x s _ => noWord x s
  obtain ⟨span, getters, bit, hspan, hgetters, hflatten, hreads⟩ :=
    solved.readsBooleans whole whole' ordered object hword struct
  have hperm := solved.getterNames_perm object hword hspan hgetters hreads
  rw [← hflatten] at hperm
  refine ⟨origin, horigin, value, hvalue, hshows.typeName, hperm.trans (hnames ▸ hstripped), fun hdistinct => ?_⟩
  have hsub : ((value.fields.filter fun f => r.usable f.ty (some f.value)).map (·.name)).Sublist
      (value.fields.map (·.name)) := List.filter_sublist.map _
  rw [solved.memberNames_nodup_iff whole ordered object hspan struct hperm, hnames, hstripped.nodup_iff,
    Naming.nodup_stripMember_iff (hsub.nodup hdistinct)]
  simp only [List.mem_filter]
  exact ⟨fun h f hf g hg hf' hg' => h f ⟨hf, hf'⟩ g ⟨hg, hg'⟩, fun h f hf g hg => h f hf.1 g hg.1 hf.2 hg.2⟩

end Walk

namespace Options

variable {o : Options} {classifier : Classifier} {registry : Registry} {unit : DataUnit}

/-- In what a data unit is compiled to, every definition is that of a custom struct, or it is a struct whose members
bear the names of the fields of an object without the member prefix.  If the fields of the object have names of their
own, so have the members, unless a field goes by the prefix in front of the name of another one
(`Walk.Rules.NamesMembers`). -/
theorem compile_memberNames {result : CompiledUnit} (compiled : o.compile classifier registry unit = .ok result) :
    ∃ root walked m passes place ds front definitions,
      (o.rules classifier).walk .empty unit = .ok (root, walked) ∧ walked.solve = .ok (m, passes) ∧
      walked.Solved m passes place ∧ m.definitions = .ok ds ∧
      result.code = o.style.frame (front ++ String.join definitions) ∧
      (∀ text ∈ definitions, (∃ name c, (name, .custom c) ∈ ds ∧ text = customText c) ∨
        ∃ name k s, (name, .object k) ∈ ds ∧ m.structDeclaration name k = .ok s ∧ text = s.text) ∧
      ∀ name k, (name, .object k) ∈ ds → ∃ i row object s, walked.IsObject i row ∧ place i = k ∧
        (Value.object object).In (.dataUnit unit) ∧ name = Naming.typeName object.typeName ∧
        m.structDeclaration name k = .ok s ∧ s.text ∈ definitions ∧ (o.rules classifier).NamesMembers object s := by
  obtain ⟨root, m, hsolved, -, hcode⟩ := compile_eq_ok.mp compiled
  obtain ⟨walked, passes, hwalk, hsolve⟩ := solvedModel_eq_ok.mp hsolved
  have hwhole := Walk.Rules.walk_whole (s := .full) hwalk
  have hordered := Walk.Rules.walk_ordered (s := .full) hwalk
  obtain ⟨place, hplace⟩ := Model.solve_solved hwhole hordered hsolve
  obtain ⟨origins, hpictures, -, hinside⟩ := Walk.Rules.walk_pictures_inUnit hwalk
  have hwritten : m.interface o.style = .ok result.code := mapError_eq_ok.mp hcode
  obtain ⟨ds, hds, -⟩ := bind_eq_ok.mp hwritten
  have hds := lift_eq_ok.mp hds
  obtain ⟨front, definitions, htext, hstructs, honly⟩ := Model.interface_defines hwritten hds
  refine ⟨root, walked, m, passes, place, ds, front, definitions, hwalk, hsolve, hplace, hds, htext, honly,
    fun name k hmem => ?_⟩
  obtain ⟨s, hstruct, hemitted⟩ := hstructs name k hmem
  obtain ⟨row', hrow', hthere, hname⟩ := Model.object_of_definitions hds hmem
  obtain ⟨i, row, hobject, rfl⟩ := hplace.objects k row' hrow'
  obtain rfl := Except.ok.inj ((hplace.row i row hobject.1).symm.trans hrow'.1)
  rw [Model.foldedRow_value] at hthere
  rw [Model.foldedRow_typeName] at hname
  obtain ⟨origin, horigin, object, hvalue, htype, hnames⟩ := hpictures.namesMembers hplace hwhole
    (solvedModel_whole hsolved) hordered hobject hthere (fun _ _ hr => Walk.Rules.walk_kind_ne_bitSet hwalk hr) hstruct
  exact ⟨i, row, object, s, hobject, rfl, hinside origin horigin _ hvalue, Option.some.inj (hname.symm.trans htype),
    hstruct, hemitted, hnames⟩

/-- A panel with two switches, only one of which has the prefix, and with a field that goes by the prefix alone. -/
def panel : DataUnit :=
  ⟨"panel", ⟨"Panel", [⟨"m_on", .bool, .bool true⟩, ⟨"off", .bool, .bool false⟩, ⟨"m_", .scalar .u8, .scalar (.u8 1)⟩,
    ⟨"m_size", .scalar .u16, .scalar (.u16 2)⟩]⟩⟩

/-- The switches have a getter each and one word, which bears the name of the first; all names differ. -/
theorem compile_memberNames_panel : ∃ (place : Nat → Nat) (result : CompiledUnit),
    ∃ root walked m passes front definitions i row s, compile {} .standard .empty panel = .ok result ∧
    (rules {} .standard).walk .empty panel = .ok (root, walked) ∧ walked.solve = .ok (m, passes) ∧
    result.code = Style.standard.frame (front ++ String.join definitions) ∧ walked.IsObject i row ∧ place i = 1 ∧
    m.structDeclaration "panel_t" 1 = .ok s ∧ s.text ∈ definitions ∧
    s.memberNames = ["geton", "getoff", "getsize", "getm_", "m_on", "m_size", "m_m_"] ∧
    (rules {} .standard).NamesMembers panel.root s ∧ (panel.root.fields.map (·.name)).Nodup ∧
    ∀ f ∈ panel.root.fields, ∀ g ∈ panel.root.fields, ¬ Naming.Collides "m_" f.name g.name := by
  have hcheck : ((compile {} .standard .empty panel).toOption.isSome &&
      (solvedModel {} .standard panel).toOption.any fun x =>
        x.2.definitions.toOption = some [("panel_t", .object 1)] &&
        (x.2.structDeclaration "panel_t" 1).toOption.any fun s =>
          s.memberNames = ["geton", "getoff", "getsize", "getm_", "m_on", "m_size", "m_m_"]) = true := by
    decide +kernel
  simp only [Option.any_eq_true, Option.isSome_iff_exists, Bool.and_eq_true, decide_eq_true_eq,
    toOption_eq_some, Prod.exists] at hcheck
  obtain ⟨⟨result, hcompile⟩, root, m, hsolved, hds, s, hstruct, hmembers⟩ := hcheck
  obtain ⟨root', walked, m', passes, place, ds, front, definitions, hwalk, hsolve, -, hds', htext, -, hall⟩ :=
    compile_memberNames hcompile
  obtain ⟨rfl, rfl⟩ := Prod.mk.inj
    (Except.ok.inj (hsolved.symm.trans (solvedModel_eq_ok.mpr ⟨walked, passes, hwalk, hsolve⟩)))
  obtain rfl := Except.ok.inj (hds.symm.trans hds')
  obtain ⟨i, row, object, s', hobject, hplace, hin, -, hstruct', hemitted, hnames⟩ :=
    hall "panel_t" 1 (List.mem_singleton_self _)
  obtain rfl := Except.ok.inj (hstruct.symm.trans hstruct')
  obtain rfl : object = panel.root := by
    have hmem := hin.objects_subset (Value.mem_objects_self object)
    exact List.mem_singleton.mp hmem
  have hdistinct : (panel.root.fields.map (·.name)).Nodup := by decide
  have hmembersNodup : s.memberNames.Nodup := by
    rw [hmembers]
    decide
  have hapart := (hnames.distinct hdistinct).mp hmembersNodup
  have husable : ∀ f ∈ panel.root.fields, (rules {} .standard).usable f.ty (some f.value) = true := by
    decide +kernel
  refine ⟨place, result, root, walked, m, passes, front, definitions, i, row, s, hcompile, hwalk, hsolve, htext, hobject,
    hplace, hstruct, hemitted, hmembers, hnames, hdistinct, fun f hf g hg => hapart f hf g hg (husable f hf) (husable g hg)⟩

/-- Two fields of different names, one of which is the prefix and the name of the other. -/
def twinFields : DataUnit :=
  ⟨"twins", ⟨"Root", [⟨"m_x", .scalar .u8, .scalar (.u8 1)⟩, ⟨"x", .scalar .u8, .scalar (.u8 2)⟩]⟩⟩

/-- The data unit is compiled without an error, and its struct has two getters and two fields of one name. -/
theorem exists_twin_members : ∃ result m root s, compile {} .standard .empty twinFields = .ok result ∧
    (∀ object ∈ (Value.dataUnit twinFields).objects, (object.fields.map (·.name)).Nodup) ∧
    solvedModel {} .standard twinFields = .ok (root, m) ∧ m.interface .standard = .ok result.code ∧
    m.definitions = .ok [("root_t", .object 1)] ∧ m.structDeclaration "root_t" 1 = .ok s ∧
    (∃ front definitions, result.code = Style.standard.frame (front ++ String.join definitions) ∧
      s.text ∈ definitions) ∧
    s.memberNames = ["getx", "getx", "m_x", "m_x"] ∧ ¬ s.memberNames.Nodup := by
  have hcheck : ((compile {} .standard .empty twinFields).toOption.isSome &&
      (solvedModel {} .standard twinFields).toOption.any fun x =>
        x.2.definitions.toOption = some [("root_t", .object 1)] &&
        (x.2.structDeclaration "root_t" 1).toOption.any fun s =>
          s.memberNames = ["getx", "getx", "m_x", "m_x"]) = true := by
    decide +kernel
  simp only [Option.any_eq_true, Option.isSome_iff_exists, Bool.and_eq_true, decide_eq_true_eq,
    toOption_eq_some, Prod.exists] at hcheck
  obtain ⟨⟨result, hcompile⟩, root, m, hsolved, hds, s, hstruct, hmembers⟩ := hcheck
  obtain ⟨root', m', hsolved', -, hcode⟩ := compile_eq_ok.mp hcompile
  obtain ⟨rfl, rfl⟩ := Prod.mk.inj (Except.ok.inj (hsolved.symm.trans hsolved'))
  have hwritten : m.interface .standard = .ok result.code := mapError_eq_ok.mp hcode
  obtain ⟨s', hstruct', hemitted⟩ := Model.exists_struct_of_interface hwritten hds (List.mem_singleton_self _)
  obtain rfl := Except.ok.inj (hstruct.symm.trans hstruct')
  refine ⟨result, m, root, s, hcompile, ?_, hsolved, hwritten, hds, hstruct, hemitted, hmembers, ?_⟩
  · intro object hobject
    obtain rfl : object = twinFields.root := List.mem_singleton.mp hobject
    decide
  · rw [hmembers]
    decide

end Options

end ObjectPack
