import ObjectPack.Proofs.Interface.Bits

/-!
# Members of structs

The members of a struct go by the names of its rows: a getter for each field that the object has had, be it a bit of
a word now, and a private field for each row that is left when the booleans have been folded.  Every field of the
object has its getter at one place, and there is a field behind every getter (`Model.Solved.exists_position`,
`Model.Solved.field_of_position`), so the getters bear the names of the fields, each once
(`Model.Solved.getterNames_perm`).  A word bears the name of one of its booleans.  So the members of a struct have
names of their own iff the fields of its object have (`Model.Solved.memberNames_nodup_iff`).
-/

namespace ObjectPack

open Outcome Interface

/-! ### Lists of lists -/

section Places

variable {α β γ : Type} {l : List α}

/-- Elements with one index are one element. -/
theorem eq_of_mem_zipIdx {a b : α × Nat} (ha : a ∈ l.zipIdx) (hb : b ∈ l.zipIdx) (index : a.2 = b.2) : a = b := by
  rw [List.mem_zipIdx_iff_getElem?] at ha hb
  exact Prod.ext (Option.some.inj (ha.symm.trans (index ▸ hb))) index

theorem nodup_zipIdx (l : List α) : l.zipIdx.Nodup := by
  refine List.Nodup.of_map Prod.snd ?_
  rw [List.zipIdx_map_snd]
  exact List.nodup_range'

/-- The elements of a list of lists with their places, each with a label. -/
def placedLabels (g : β → γ) (lists : List (List β)) : List ((Nat × Nat) × γ) :=
  lists.zipIdx.flatMap fun bs => bs.1.zipIdx.map fun b => ((bs.2, b.2), g b.1)

theorem mem_placedLabels {g : β → γ} {lists : List (List β)} {j k : Nat} {label : γ} :
    ((j, k), label) ∈ placedLabels g lists ↔ ∃ bs b, lists[j]? = some bs ∧ bs[k]? = some b ∧ g b = label := by
  simp only [placedLabels, List.mem_flatMap, List.mem_map, List.mem_zipIdx_iff_getElem?, Prod.exists, Prod.mk.injEq]
  constructor
  · rintro ⟨bs, _, hbs, b, _, hb, ⟨rfl, rfl⟩, rfl⟩
    exact ⟨bs, b, hbs, hb, rfl⟩
  · rintro ⟨bs, b, hbs, hb, rfl⟩
    exact ⟨bs, j, hbs, b, k, hb, ⟨rfl, rfl⟩, rfl⟩

theorem nodup_placedLabels (g : β → γ) (lists : List (List β)) : (placedLabels g lists).Nodup := by
  refine List.nodup_flatMap.mpr ⟨fun bs _ => ?_, (nodup_zipIdx lists).imp_of_mem fun {bs cs} hbs hcs hne => ?_⟩
  · refine List.Nodup.map_on (fun b hb b' hb' heq => ?_) (nodup_zipIdx bs.1)
    exact eq_of_mem_zipIdx hb hb' (Prod.mk.inj (Prod.mk.inj heq).1).2
  · rw [Function.onFun, List.disjoint_left]
    rintro _ hb hc
    obtain ⟨b, -, rfl⟩ := List.mem_map.mp hb
    obtain ⟨c, -, heq⟩ := List.mem_map.mp hc
    exact hne (eq_of_mem_zipIdx hbs hcs (Prod.mk.inj (Prod.mk.inj heq).1).1.symm)

theorem map_placedLabels (g : β → γ) (lists : List (List β)) :
    (placedLabels g lists).map Prod.snd = lists.flatten.map g := by
  have hinner : ∀ bs : List β × Nat, (bs.1.zipIdx.map fun b => ((bs.2, b.2), g b.1)).map Prod.snd = bs.1.map g := by
    intro bs
    rw [List.map_map]
    conv_rhs => rw [← List.zipIdx_map_fst 0 bs.1, List.map_map]
    rfl
  rw [placedLabels, List.map_flatMap, List.map_flatten, List.flatMap_congr fun bs _ => hinner bs, ← List.flatMap_def]
  conv_rhs => rw [← List.zipIdx_map_fst 0 lists, List.flatMap_map]

/-- If every element of a list stands at one place of a list of lists, and there is an element for every place, then
both have the same labels. -/
theorem map_flatten_perm {lists : List (List β)} {f : α → γ} {g : β → γ} (position : Nat → Nat × Nat)
    (present : ∀ x a, l[x]? = some a → ∃ bs b, lists[(position x).1]? = some bs ∧ bs[(position x).2]? = some b ∧
      g b = f a)
    (once : ∀ x y, x < l.length → y < l.length → position x = position y → x = y)
    (all : ∀ j bs k b, lists[j]? = some bs → bs[k]? = some b → ∃ x < l.length, position x = (j, k)) :
    (lists.flatten.map g).Perm (l.map f) := by
  have hlabels : (l.zipIdx.map fun a => (position a.2, f a.1)).map Prod.snd = l.map f := by
    rw [List.map_map]
    conv_rhs => rw [← List.zipIdx_map_fst 0 l, List.map_map]
    rfl
  -- Labels with their places differ, so it is enough that both have the same of them.
  rw [← hlabels, ← map_placedLabels]
  refine List.Perm.map _ ((List.perm_ext_iff_of_nodup (nodup_placedLabels g lists) ?_).mpr ?_)
  · refine List.Nodup.map_on (fun a ha b hb heq => eq_of_mem_zipIdx ha hb ?_) (nodup_zipIdx l)
    rw [List.mem_zipIdx_iff_getElem?] at ha hb
    exact once a.2 b.2 (List.getElem?_eq_some_iff.mp ha).1 (List.getElem?_eq_some_iff.mp hb).1 (Prod.mk.inj heq).1
  · rintro ⟨⟨j, k⟩, label⟩
    simp only [mem_placedLabels, List.mem_map, List.mem_zipIdx_iff_getElem?, Prod.exists, Prod.mk.injEq]
    constructor
    · rintro ⟨bs, b, hbs, hb, rfl⟩
      obtain ⟨x, hx, hposition⟩ := all _ _ _ _ hbs hb
      obtain ⟨bs', b', hbs', hb', hlabel⟩ := present x _ (List.getElem?_eq_getElem hx)
      rw [hposition] at hbs' hb'
      obtain rfl := Option.some.inj (hbs.symm.trans hbs')
      obtain rfl := Option.some.inj (hb.symm.trans hb')
      exact ⟨_, x, List.getElem?_eq_getElem hx, hposition, hlabel.symm⟩
    · rintro ⟨a, x, ha, hposition, rfl⟩
      obtain ⟨bs, b, hbs, hb, hlabel⟩ := present x a ha
      rw [hposition] at hbs hb
      exact ⟨bs, b, hbs, hb, hlabel⟩

end Places

/-! ### Names of members -/

namespace Interface

/-- The name that a getter bears behind its prefix. -/
def Getter.name : Getter → String
  | .bit name _ _ | .enum name _ | .pointer name _ | .reference name _ | .value name _ => name

/-- The names of the members of a struct: its getters and its private fields. -/
def StructDeclaration.memberNames (s : StructDeclaration) : List String :=
  s.getters.map (fun g => "get" ++ g.name) ++ s.fields.map fun f => "m_" ++ f.1

/-- A getter is declared by its name. -/
theorem Getter.exists_text (g : Getter) : ∃ type body : String,
    g.text = "    inline " ++ type ++ " get" ++ g.name ++ "() const \x7b return " ++ body := by
  have hreturn : "() const \x7b return m_" = "() const \x7b return " ++ "m_" := by decide
  cases g with
  | bit name word k =>
    refine ⟨"bool", "(m_" ++ word ++ " & (1u << " ++ toString k ++ ")) != 0; \x7d\n", ?_⟩
    have hfront : "    inline bool get" = "    inline " ++ "bool" ++ " get" := by decide
    have hreturn : "() const \x7b return (m_" = "() const \x7b return " ++ "(m_" := by decide
    unfold text
    simp only [Getter.name, hfront, hreturn, String.append_assoc]
  | enum name enumName =>
    refine ⟨"enums::" ++ enumName, "(enums::" ++ enumName ++ ")m_" ++ name ++ "; \x7d\n", ?_⟩
    have hfront : "    inline enums::" = "    inline " ++ "enums::" := by decide
    have hreturn : "() const \x7b return (enums::" = "() const \x7b return " ++ "(enums::" := by decide
    unfold text
    simp only [Getter.name, hfront, hreturn, String.append_assoc]
  | pointer name className =>
    refine ⟨className ++ " const*", "m_" ++ name ++ "; \x7d\n", ?_⟩
    have hget : " const* get" = " const*" ++ " get" := by decide
    unfold text
    simp only [Getter.name, hget, hreturn, String.append_assoc]
  | reference name type =>
    refine ⟨type.text ++ " const&", "m_" ++ name ++ "; \x7d\n", ?_⟩
    have hget : " const& get" = " const&" ++ " get" := by decide
    unfold text
    simp only [Getter.name, hget, hreturn, String.append_assoc]
  | value name type =>
    refine ⟨type.text, "m_" ++ name ++ "; \x7d\n", ?_⟩
    unfold text
    simp only [Getter.name, hreturn, String.append_assoc]

theorem StructDeclaration.memberNames_nodup_iff (s : StructDeclaration) :
    s.memberNames.Nodup ↔ (s.getters.map Getter.name).Nodup ∧ (s.fields.map (·.1)).Nodup := by
  have hinjective : ∀ lead : String, Function.Injective (lead ++ ·) := fun lead a b h => by
    simpa [← String.toList_inj] using h
  have happart : ∀ a b, "get" ++ a ≠ "m_" ++ b := fun a b h => by
    simp [← String.toList_inj] at h
  have hgetters : s.getters.map (fun g => "get" ++ g.name) = (s.getters.map Getter.name).map ("get" ++ ·) := by
    rw [List.map_map]
    rfl
  have hfields : s.fields.map (fun f => "m_" ++ f.1) = (s.fields.map (·.1)).map ("m_" ++ ·) := by
    rw [List.map_map]
    rfl
  rw [memberNames, hgetters, hfields, List.nodup_append, List.nodup_map_iff (hinjective _),
    List.nodup_map_iff (hinjective _)]
  refine ⟨fun ⟨hg, hf, _⟩ => ⟨hg, hf⟩, fun ⟨hg, hf⟩ => ⟨hg, hf, fun a ha b hb => ?_⟩⟩
  obtain ⟨_, -, rfl⟩ := List.mem_map.mp ha
  obtain ⟨_, -, rfl⟩ := List.mem_map.mp hb
  exact happart _ _

end Interface

namespace Model

variable {m m' : Model} {o r w : Row} {g : Getter} {gs : List Getter} {name : String} {b i j k top passes : Nat}
  {span : Span} {place : Nat → Nat} {s : StructDeclaration} {getters : List (List Getter)} {bit : Nat → Nat × Nat}

/-- The fields of an object are the rows that it owns, by their index. -/
theorem getElem?_fields_iff (kind : o.kind = .object) :
    (m.fields o)[k]? = some r ↔ o.Owns (o.start.getD 0 + k) ∧ m.row (o.start.getD 0 + k) = .ok r := by
  cases hstart : o.start with
  | none =>
    rw [fields, hstart]
    refine ⟨fun h => absurd h (by simp), ?_⟩
    rintro ⟨⟨start, hbegins, -⟩, -⟩
    cases hstart.symm.trans hbegins
  | some start =>
    rw [Option.getD_some]
    constructor
    · intro h
      have hk : k < o.count := by
        have hlength := (List.getElem?_eq_some_iff.mp h).1
        rw [fields, hstart, Option.elim_some, List.length_take] at hlength
        omega
      rw [getElem?_fields hstart hk] at h
      exact ⟨⟨start, hstart, Nat.le_add_right start k, by rw [Row.ownedCount_of_object kind]; omega⟩, row_eq_ok.mpr h⟩
    · rintro ⟨⟨_, hbegins, -, hlt⟩, hrow⟩
      obtain rfl := Option.some.inj (hstart.symm.trans hbegins)
      rw [Row.ownedCount_of_object kind] at hlt
      rw [getElem?_fields hstart (by omega)]
      exact row_eq_ok.mp hrow

/-! ### Getters of rows -/

/-- The getter of a row that is no word bears the name of the row. -/
theorem getters_name (h : m.getters i = .ok gs) (hrow : m.row i = .ok w) (kind : w.kind ≠ .bitSet) :
    ∃ g, gs = [g] ∧ g.name = w.name := by
  unfold getters at h
  simp only [hrow, bind_eq_ok, Except.ok.injEq, exists_eq_left'] at h
  split at h
  · exact absurd (by assumption) kind
  all_goals
    obtain ⟨_, -, h⟩ := bind_eq_ok.mp h
    exact ⟨_, (pure_eq_ok.mp h).symm, rfl⟩

/-- The getters of a word read bits. -/
theorem getters_bit (h : m.getters i = .ok gs) (hrow : m.row i = .ok w) (kind : w.kind = .bitSet) (mem : g ∈ gs) :
    ∃ name F k, g = .bit name F k := by
  unfold getters at h
  simp only [hrow, bind_eq_ok, Except.ok.injEq, exists_eq_left', kind, pure_eq_ok] at h
  obtain ⟨-, -, bools, -, rfl⟩ := h
  obtain ⟨b, -, rfl⟩ := List.mem_map.mp mem
  exact ⟨_, _, _, rfl⟩

/-! ### Getters of objects -/

/-- Whether the getter at one place of a struct is that of row `i`: a bit for a boolean, and else the only getter of
the member that the row is. -/
def PositionOf (m : Model) (span : Span) (place : Nat → Nat) (bit : Nat → Nat × Nat) (i : Nat) (p : Nat × Nat) : Prop :=
  ∃ r, m.row i = .ok r ∧ (r.kind = .bool → p = bit i) ∧ (r.kind ≠ .bool → span.start + p.1 = place i ∧ p.2 = 0)

theorem PositionOf.eq {p q : Nat × Nat} (h : m.PositionOf span place bit i p) (h' : m.PositionOf span place bit i q) :
    p = q := by
  obtain ⟨r, hrow, hbit, hother⟩ := h
  obtain ⟨r', hrow', hbit', hother'⟩ := h'
  obtain rfl := Except.ok.inj (hrow.symm.trans hrow')
  by_cases hbool : r.kind = .bool
  · rw [hbit hbool, hbit' hbool]
  · obtain ⟨hplace, hzero⟩ := hother hbool
    obtain ⟨hplace', hzero'⟩ := hother' hbool
    exact Prod.ext (by omega) (hzero.trans hzero'.symm)

section

variable (solved : m.Solved m' passes place) (object : m.IsObject i o)
  (noWord : ∀ x r, o.Owns x → m.row x = .ok r → r.kind ≠ .bitSet) (hspan : m'.members (place i) = .ok span)
  (hgetters : span.mapM m'.getters = .ok getters) (reads : ReadsBooleans m o m' span s getters bit)

include solved reads

include object hspan hgetters noWord in
/-- A field of an object has a getter, which bears its name. -/
theorem Solved.exists_position (owns : o.Owns j) (hrow : m.row j = .ok r) : ∃ p, m.PositionOf span place bit j p ∧
    ∃ gs g, getters[p.1]? = some gs ∧ gs[p.2]? = some g ∧ g.name = r.name := by
  obtain ⟨hcount, hget⟩ := Span.mapM_eq_ok hgetters
  by_cases hbool : r.kind = .bool
  · obtain ⟨-, F, word, -, ⟨gs, hgs, hg⟩, -⟩ := reads.reads j r ⟨owns, hrow, hbool⟩
    exact ⟨bit j, ⟨r, hrow, fun _ => rfl, fun hother => absurd hbool hother⟩, gs, _, hgs, hg, rfl⟩
  · obtain ⟨k, hk, hplace⟩ := (solved.owns_iff_member object hspan).mp (solved.field i o j r object owns hrow hbool)
    have hgs := List.getElem?_eq_getElem (hcount ▸ hk : k < getters.length)
    have hmember := hget k _ hgs
    rw [← hplace] at hmember
    have hkind : (m.foldedRow r).kind ≠ .bitSet := by
      rw [foldedRow_kind]
      exact noWord j r owns hrow
    obtain ⟨g, hg, hname⟩ := getters_name hmember (solved.row j r hrow) hkind
    refine ⟨(k, 0), ⟨r, hrow, fun h => absurd h hbool, fun _ => ⟨hplace.symm, rfl⟩⟩, _, g, hgs, by rw [hg]; rfl, ?_⟩
    rw [hname, foldedRow_name]

include object hspan hgetters in
/-- Behind every getter there is a field. -/
theorem Solved.field_of_position {gs : List Getter} (hgs : getters[k]? = some gs) (hg : gs[b]? = some g) :
    ∃ j r, o.Owns j ∧ m.row j = .ok r ∧ m.PositionOf span place bit j (k, b) := by
  obtain ⟨hcount, hget⟩ := Span.mapM_eq_ok hgetters
  have hk : k < span.length := hcount ▸ (List.getElem?_eq_some_iff.mp hgs).1
  have hmember := hget k gs hgs
  obtain ⟨w, hw⟩ := exists_row_of_getters hmember
  by_cases hword : w.kind = .bitSet
  · obtain ⟨name, F, l, rfl⟩ := getters_bit hmember hw hword (List.mem_of_getElem? hg)
    obtain ⟨j, r, ⟨howns, hrow, hbool⟩, hbit⟩ := reads.only k gs b name F l hgs hg
    exact ⟨j, r, howns, hrow, r, hrow, fun _ => hbit.symm, fun hother => absurd hbool hother⟩
  · obtain ⟨g', rfl, -⟩ := getters_name hmember hw hword
    have hb : b = 0 := by
      have hlt := (List.getElem?_eq_some_iff.mp hg).1
      rw [List.length_singleton] at hlt
      omega
    have howned := (solved.owns_iff_member object hspan).mpr ⟨k, hk, rfl⟩
    rcases solved.owned i o _ object howned with ⟨j, r, howns, hrow, hbool, hplace⟩ | ⟨w', hw', hkind, -⟩
    · exact ⟨j, r, howns, hrow, r, hrow, fun h => absurd h hbool, fun _ => ⟨hplace.symm, hb⟩⟩
    · obtain rfl := Except.ok.inj (hw.symm.trans hw')
      exact absurd hkind hword

include noWord in
/-- Different fields have different getters. -/
theorem Solved.position_inj {p : Nat × Nat} (owns : o.Owns j) (owns' : o.Owns k) (hj : m.PositionOf span place bit j p)
    (hk : m.PositionOf span place bit k p) : j = k := by
  -- The bit of a boolean lies in a word, and no other field is one.
  have hapart : ∀ {x y p}, o.Owns x → o.Owns y → m.PositionOf span place bit x p → m.PositionOf span place bit y p →
      (∃ r, m.row x = .ok r ∧ r.kind = .bool) → ∃ r, m.row y = .ok r ∧ r.kind = .bool := by
    rintro x y p hx hy ⟨r, hr, hbit, -⟩ ⟨r', hr', -, hother⟩ ⟨_, hr₁, hbool⟩
    obtain rfl := Except.ok.inj (hr.symm.trans hr₁)
    refine ⟨r', hr', by_contra fun hnot => ?_⟩
    obtain ⟨-, F, word, ⟨-, w, hw, hword, -⟩, -⟩ := reads.reads x r ⟨hx, hr, hbool⟩
    rw [← hbit hbool, (hother hnot).1] at hw
    obtain rfl := Except.ok.inj ((solved.row y r' hr').symm.trans hw)
    rw [foldedRow_kind] at hword
    exact noWord y r' hy hr' hword
  by_cases hbool : ∃ r, m.row j = .ok r ∧ r.kind = .bool
  · obtain ⟨r', hr', hbool'⟩ := hapart owns owns' hj hk hbool
    obtain ⟨r, hr, hkind⟩ := hbool
    obtain ⟨_, hr₁, hbit, -⟩ := hj
    obtain ⟨_, hr₁', hbit', -⟩ := hk
    obtain rfl := Except.ok.inj (hr.symm.trans hr₁)
    obtain rfl := Except.ok.inj (hr'.symm.trans hr₁')
    exact reads.once j r k r' ⟨owns, hr, hkind⟩ ⟨owns', hr', hbool'⟩ ((hbit hkind).symm.trans (hbit' hbool'))
  · have hbool' : ¬ ∃ r, m.row k = .ok r ∧ r.kind = .bool := fun h => hbool (hapart owns' owns hk hj h)
    obtain ⟨r, hr, -, hother⟩ := hj
    obtain ⟨r', hr', -, hother'⟩ := hk
    have hplace := (hother fun h => hbool ⟨r, hr, h⟩).1.symm.trans (hother' fun h => hbool' ⟨r', hr', h⟩).1
    exact solved.injective j k (lt_size_of_row hr) (lt_size_of_row hr') hplace

include object hspan hgetters noWord in
/-- The getters of a struct bear the names of the fields of its object, each once. -/
theorem Solved.getterNames_perm : (getters.flatten.map Getter.name).Perm ((m.fields o).map (·.name)) := by
  have hexists : ∀ j, (∃ r, o.Owns j ∧ m.row j = .ok r) → ∃ p, m.PositionOf span place bit j p ∧
      ∀ r, m.row j = .ok r → ∃ gs g, getters[p.1]? = some gs ∧ gs[p.2]? = some g ∧ g.name = r.name := by
    rintro j ⟨r, howns, hrow⟩
    obtain ⟨p, hp, hgetter⟩ := solved.exists_position object noWord hspan hgetters reads howns hrow
    refine ⟨p, hp, fun r' hrow' => ?_⟩
    obtain rfl := Except.ok.inj (hrow.symm.trans hrow')
    exact hgetter
  choose! position hposition using hexists
  let start := o.start.getD 0
  have howned : ∀ x, x < (m.fields o).length → ∃ r, o.Owns (start + x) ∧ m.row (start + x) = .ok r := fun x hx =>
    ⟨_, (getElem?_fields_iff object.2).mp (List.getElem?_eq_getElem hx)⟩
  refine map_flatten_perm (fun x => position (start + x)) (fun x r hx => ?_) (fun x y hx hy heq => ?_)
    fun k gs b g hgs hg => ?_
  · obtain ⟨howns, hrow⟩ := (getElem?_fields_iff object.2).mp hx
    exact (hposition _ ⟨r, howns, hrow⟩).2 r hrow
  · obtain ⟨r, howns, hrow⟩ := howned x hx
    obtain ⟨r', howns', hrow'⟩ := howned y hy
    have hsame := (hposition _ ⟨r', howns', hrow'⟩).1
    rw [← heq] at hsame
    have hindex := solved.position_inj noWord reads howns howns' (hposition _ ⟨r, howns, hrow⟩).1 hsame
    omega
  · obtain ⟨j, r, howns, hrow, hj⟩ := solved.field_of_position object hspan hgetters reads hgs hg
    obtain ⟨x, rfl⟩ : ∃ x, j = start + x := by
      obtain ⟨_, hstart, hle, -⟩ := howns
      obtain ⟨x, rfl⟩ := Nat.exists_eq_add_of_le hle
      exact ⟨x, by rw [show start = _ from congrArg (Option.getD · 0) hstart, Option.getD_some]⟩
    refine ⟨x, ?_, (hposition _ ⟨r, howns, hrow⟩).1.eq hj⟩
    exact (List.getElem?_eq_some_iff.mp ((getElem?_fields_iff object.2).mpr ⟨howns, hrow⟩)).1

end

/-- The members of a struct have names of their own iff the fields of its object have. -/
theorem Solved.memberNames_nodup_iff (solved : m.Solved m' passes place) (whole : m.Whole top) (ordered : m.Ordered)
    (object : m.IsObject i o) (hspan : m'.members (place i) = .ok span)
    (struct : m'.structDeclaration name (place i) = .ok s)
    (perm : (s.getters.map Getter.name).Perm ((m.fields o).map (·.name))) :
    s.memberNames.Nodup ↔ ((m.fields o).map (·.name)).Nodup := by
  rw [s.memberNames_nodup_iff, perm.nodup_iff]
  refine ⟨fun ⟨h, _⟩ => h, fun h => ⟨h, ?_⟩⟩
  rw [solved.map_name whole object hspan struct]
  exact solved.names_nodup whole ordered object h

end Model

end ObjectPack
