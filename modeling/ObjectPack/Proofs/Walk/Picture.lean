import ObjectPack.Proofs.Walk.Grow
import ObjectPack.Proofs.Walk.Usable

/-!
# What rows stand for

The rows of a model are a picture of an object graph: every row stands for a value of the graph, and the
rows that it owns stand for the parts of that value (`Walk.Pictures`).  A graph may come back to a data
unit that it is part of, so there is no tree that the rows could be unfolded into; the picture is a
labelling of the rows, and what it says of a row is said of that row and of the labels of its range
(`Walk.Shows`).

When a value gets its row, the row says all that there is to say, unless the value has parts; then it is
put off (`Walk.addTreated_gains`).
-/

namespace ObjectPack.Walk

open Outcome

/-- What a row stands for. -/
inductive Origin where
  /-- The data unit that a walk begins with. -/
  | unit (unit : DataUnit)
  /-- The root object of a data unit. -/
  | root (unit : DataUnit)
  /-- A field or an element; an element that is only declared has no value. -/
  | part (name : String) (declared : Ty) (value : Option Value)

namespace Origin

/-- The name of the row. -/
def name : Origin → String
  | .part name _ _ => name
  | _ => ""

/-- The value that the row stands for. -/
def value : Origin → Option Value
  | .unit u => some (.dataUnit u)
  | .root u => some (.object u.root)
  | .part _ _ value => value

/-- The row of a field goes by the name of the field without its prefix. -/
def field (r : Rules) (f : Field) : Origin :=
  .part (Naming.stripMember f.name r.memberLead) f.ty (some f.value)

/-- The rows of elements have no names. -/
def element (declared : Ty) (value : Option Value) : Origin := .part "" declared value

end Origin

/-! ### The parts of values -/

/-- Whether a list holds the fields of another one in the order in which they become rows. -/
def InOrder (order : MemberOrder) (fields ordered : List Field) : Prop :=
  match order with
  | .declaration => ordered = fields
  | .typeName =>
    ordered.Perm fields ∧ ordered.Pairwise (·.ty.text ≤ ·.ty.text) ∧
      ∀ text, (ordered.filter (·.ty.text = text)) = fields.filter (·.ty.text = text)

theorem InOrder.mem_iff {order : MemberOrder} {fields ordered : List Field}
    (h : InOrder order fields ordered) {field : Field} : field ∈ ordered ↔ field ∈ fields := by
  unfold InOrder at h
  split at h
  · rw [h]
  · exact h.1.mem_iff

/-- Whether there are objects of different types among some values. -/
def Mixed (values : List Value) : Prop :=
  ∃ o o', .object o ∈ values ∧ .object o' ∈ values ∧
    Naming.typeName o.typeName ≠ Naming.typeName o'.typeName

/-- Whether a collection bears the name of the class that its elements are declared with: it does where
they have different types. -/
def Bears (element : Ty) (values : List Value) (typeName : Option String) : Prop :=
  (¬ Mixed values ∧ typeName = none) ∨
    (Mixed values ∧ ∃ name, element.strip = .object name ∧ typeName = some (Naming.typeName name))

/-! ### Rows -/

/-- Whether something is treated in some way; data units that are walked and their root objects are treated
as what they are. -/
def Rules.Treats (r : Rules) (o : Origin) (t : Treatment) : Prop :=
  match o with
  | .part _ declared value => r.treatmentOf declared value = some t
  | _ => True

/-- Whether a row shows a value that has no parts. -/
inductive Plain (r : Rules) (texts : TextPool) : Origin → Row → Prop
  | bool {name : String} {declared : Ty} {b : Bool}
      (treated : r.treatmentOf declared (some (.bool b)) = some .bool) :
    Plain r texts (.part name declared (some (.bool b))) ⟨.bool, name, none, none, 1, .bool b⟩
  | noBool {name : String} {declared : Ty} {value : Option Value}
      (treated : r.treatmentOf declared value = some .bool) (absent : isAbsent value = true) :
    Plain r texts (.part name declared value) ⟨.bool, name, none, none, 1, .bool false⟩
  | scalar {name : String} {declared : Ty} {s : Scalar}
      (treated : r.treatmentOf declared (some (.scalar s)) = some (.scalar s.format)) :
    Plain r texts (.part name declared (some (.scalar s)))
      ⟨.ofFormat s.format, name, none, none, 1, .scalar s⟩
  | noScalar {name : String} {declared : Ty} {value : Option Value} {format : Scalar.Format}
      (treated : r.treatmentOf declared value = some (.scalar format)) (absent : isAbsent value = true) :
    Plain r texts (.part name declared value)
      ⟨.ofFormat format, name, none, none, 1, .scalar (.zero format)⟩
  | text {name : String} {declared : Ty} {t : PooledText} {index : Nat}
      (treated : r.treatmentOf declared (some (.text t.text)) = some .string)
      (pooled : texts.entries[index]? = some t) :
    Plain r texts (.part name declared (some (.text t.text)))
      ⟨.string, name, none, some index, t.text.utf8ByteSize, .present⟩
  | noText {name : String} {declared : Ty} {value : Option Value}
      (treated : r.treatmentOf declared value = some .string) (absent : isAbsent value = true) :
    Plain r texts (.part name declared value) ⟨.string, name, none, none, 0, .null⟩
  | enum {name : String} {declared : Ty} {e : Enumeration} {v : Int64}
      (treated : r.treatmentOf declared (some (.enum e v)) = some .enum) :
    Plain r texts (.part name declared (some (.enum e v)))
      ⟨.enum, name, some e.name, none, 1, .enum e v⟩
  | noEnum {name : String} {declared : Ty} {value : Option Value} {e : Enumeration}
      (treated : r.treatmentOf declared value = some .enum) (absent : isAbsent value = true)
      (declares : declared.strip = .enum e) :
    Plain r texts (.part name declared value)
      ⟨.enum, name, some e.name, none, 1, .enum e e.defaultValue⟩
  | custom {name : String} {declared : Ty} {c : CustomStruct}
      (treated : r.treatmentOf declared (some (.custom c)) = some .custom) :
    Plain r texts (.part name declared (some (.custom c)))
      ⟨.struct, name, some c.name, none, 1, .struct c⟩
  | noCustom {name : String} {declared : Ty} (treated : r.treatmentOf declared none = some .custom) :
    Plain r texts (.part name declared none)
      ⟨.struct, name, some (absentTypeName declared.strip), none, 1, .null⟩
  | noObject {name : String} {declared : Ty} {value : Option Value}
      (treated : r.treatmentOf declared value = some .object) (absent : isAbsent value = true) :
    Plain r texts (.part name declared value)
      ⟨.object, name, some (absentTypeName declared.strip), none, 0, .null⟩
  | noUnit {name : String} {declared : Ty} {value : Option Value}
      (treated : r.treatmentOf declared value = some .dataUnit) (absent : isAbsent value = true) :
    Plain r texts (.part name declared value)
      ⟨.dataUnit, name, some (absentTypeName declared.strip), none, 0, .null⟩

/-- Whether a row shows what it stands for, given what the other rows stand for and which parts of a value
get rows. -/
inductive Shows (r : Rules) (use : Ty → Option Value → Bool) (texts : TextPool)
    (origins : List Origin) : Origin → Row → Prop
  | plain {o : Origin} {row : Row} (h : Plain r texts o row) : Shows r use texts origins o row
  | object {o : Origin} {object : Object} {ordered fields : List Field} {start : Nat}
      (treated : r.Treats o .object) (value : o.value = some (.object object))
      (order : InOrder r.order object.fields ordered)
      (used : fields = ordered.filter fun field => use field.ty (some field.value))
      (rows : fields.map (.field r) <+: origins.drop start) :
    Shows r use texts origins o
      ⟨.object, o.name, some (Naming.typeName object.typeName), some start, fields.length, .present⟩
  | sequence {name : String} {declared : Ty} {items kept : List Value} {typeName : Option String}
      {start : Nat} (treated : r.treatmentOf declared (some (.sequence items)) = some .array)
      (used : kept = items.filter fun item => use (Rules.elementType declared) (some item))
      (nonempty : kept ≠ []) (bears : Bears (Rules.elementType declared) kept typeName)
      (rows : kept.map (fun item => .element (Rules.elementType declared) (some item)) <+:
        origins.drop start) :
    Shows r use texts origins (.part name declared (some (.sequence items)))
      ⟨.array, name, typeName, some start, kept.length, .present⟩
  | noElements {name : String} {declared element : Ty} {value : Option Value} {start : Nat}
      (treated : r.treatmentOf declared value = some .array)
      (empty : value = some (.sequence []) ∨ isAbsent value = true)
      (declares : declared.strip.element? = some element)
      (rows : [.element element none] <+: origins.drop start) :
    Shows r use texts origins (.part name declared value)
      ⟨.array, name, none, some start, 0, .present⟩
  | dictionary {name : String} {declared key val : Ty} {entries kept : List (Value × Value)}
      {typeName : Option String} {start : Nat}
      (treated : r.treatmentOf declared (some (.dictionary entries)) = some .dictionary)
      (types : Rules.entryTypes declared = (key, val))
      (used : kept = entries.filter fun entry => use key (some entry.1) && use val (some entry.2))
      (nonempty : kept ≠ []) (bears : Bears val (kept.map (·.2)) typeName)
      (rows : kept.map (fun entry => .element key (some entry.1)) ++
        kept.map (fun entry => .element val (some entry.2)) <+: origins.drop start) :
    Shows r use texts origins (.part name declared (some (.dictionary entries)))
      ⟨.dictionary, name, typeName, some start, kept.length, .present⟩
  | noEntries {name : String} {declared key val : Ty} {value : Option Value} {start : Nat}
      (treated : r.treatmentOf declared value = some .dictionary)
      (empty : value = some (.dictionary []) ∨ isAbsent value = true)
      (declares : declared.strip.entry? = some (key, val))
      (rows : [.element key none, .element val none] <+: origins.drop start) :
    Shows r use texts origins (.part name declared value)
      ⟨.dictionary, name, none, some start, 0, .present⟩
  | dataUnit {o : Origin} {unit first : DataUnit} {root : Nat} (treated : r.Treats o .dataUnit)
      (value : o.value = some (.dataUnit unit))
      (same : Digest.ofText first.signature = Digest.ofText unit.signature)
      (shared : origins[root]? = some (.root first)) :
    Shows r use texts origins o
      ⟨.dataUnit, o.name, some (Naming.typeName unit.root.typeName), some root, 1,
        .dataUnit (.ofText unit.signature)⟩

/-- Whether row `i` is the first one of a data unit of a signature, and row `root` stands for the root
object of that data unit. -/
structure Introduces (m : Model) (origins : List Origin) (s : Digest) (root i : Nat) : Prop where
  row : ∃ row, m.row i = .ok row ∧ row.value = .dataUnit s ∧ row.start = some root
  unit : ∃ o unit, origins[i]? = some o ∧ o.value = some (.dataUnit unit) ∧
    Digest.ofText unit.signature = s ∧ origins[root]? = some (.root unit)
  first : ∀ j row, m.row j = .ok row → row.value = .dataUnit s → i ≤ j

/-- Whether the rows of a model picture an object graph: every row stands for something, and shows it with
all of its usable parts. -/
structure Pictures (r : Rules) (m : Model) (origins : List Origin) : Prop where
  length : origins.length = m.size
  shows : ∀ i row o, m.row i = .ok row → origins[i]? = some o →
    Shows r r.usable m.texts origins o row
  usable : ∀ name declared value, .part name declared value ∈ origins → r.usable declared value = true
  introduced : ∀ j row s root, m.row j = .ok row → row.value = .dataUnit s → row.start = some root →
    ∃ i, Introduces m origins s root i

/-! ### Adding rows -/

/-- Whether a value that has been put off is the one that a row stands for; the row is as it was added. -/
inductive Deferred.IsFor (r : Rules) : Deferred → Origin → Row → Prop
  | object {o : Origin} {object : Object} {i : Nat} (treated : r.Treats o .object)
      (value : o.value = some (.object object)) :
    IsFor r (.object i object) o
      ⟨.object, o.name, some (Naming.typeName object.typeName), none, 0, .present⟩
  | sequence {name label : String} {declared : Ty} {value : Option Value} {items : List Value} {i : Nat}
      (treated : r.treatmentOf declared value = some .array)
      (is : value = some (.sequence items) ∨ items = [] ∧ isAbsent value = true) :
    IsFor r (.sequence i label items declared.strip.element?) (.part name declared value)
      ⟨.array, name, none, none, 0, .present⟩
  | dictionary {name label : String} {declared : Ty} {value : Option Value}
      {entries : List (Value × Value)} {i : Nat}
      (treated : r.treatmentOf declared value = some .dictionary)
      (is : value = some (.dictionary entries) ∨ entries = [] ∧ isAbsent value = true) :
    IsFor r (.dictionary i label entries (declared.strip.entry?.map (·.1))
      (declared.strip.entry?.map (·.2))) (.part name declared value)
      ⟨.dictionary, name, none, none, 0, .present⟩
  | dataUnit {o : Origin} {unit : DataUnit} {i : Nat} (treated : r.Treats o .dataUnit)
      (value : o.value = some (.dataUnit unit)) :
    IsFor r (.dataUnit i unit) o ⟨.dataUnit, o.name, some (Naming.typeName unit.root.typeName), none, 0,
      .dataUnit (.ofText unit.signature)⟩

/-- A value that has been put off stands in its row, which has no range yet. -/
theorem Deferred.IsFor.isOf {r : Rules} {item : Deferred} {o : Origin} {row : Row}
    (h : item.IsFor r o row) : item.IsOf row := by
  cases h <;> exact ⟨rfl, rfl, rfl⟩

namespace Progress

/-- Whether a walk has added the row of a value, and has put the value off if it has parts. -/
structure Gains (r : Rules) (p p' : Progress) (o : Origin) (row : Row) (later : List Deferred) :
    Prop where
  rows : p'.model.rows.toList = p.model.rows.toList ++ [row]
  texts : p.model.texts.entries <+: p'.model.texts.entries
  units : p'.units = p.units
  deferred : p'.deferred = p.deferred ++ later
  drawn : (later = [] ∧ Plain r p'.model.texts o row) ∨
    ∃ item : Deferred, later = [item] ∧ item.row = p.size ∧ item.IsFor r o row

/-- Whether adding a value has given its row. -/
def GainsRow (r : Rules) (p : Progress) (o : Origin) (result : Nat × Progress) : Prop :=
  result.1 = p.size ∧ ∃ row later, Gains r p result.2 o row later

variable {r : Rules} {p : Progress} {o : Origin} {row : Row} {add : Model → Nat × Model}

theorem addRow_gains (h : p.model.Adds (add p.model) row)
    (texts : p.model.texts.entries <+: (add p.model).2.texts.entries)
    (plain : Plain r (add p.model).2.texts o row) : GainsRow r p o (p.addRow add) := by
  refine ⟨h.index, row, [], ?_⟩
  exact ⟨h.rows, texts, rfl, (List.append_nil _).symm, Or.inl ⟨rfl, plain⟩⟩

theorem addDeferred_gains {item : Nat → Deferred} (h : p.model.Adds (add p.model) row)
    (texts : (add p.model).2.texts = p.model.texts) (index : (item p.size).row = p.size)
    (isFor : (item p.size).IsFor r o row) : GainsRow r p o (p.addDeferred add item) := by
  have hindex : (add p.model).1 = p.size := h.index
  refine ⟨hindex, row, [item p.size], ?_⟩
  have htexts : p.model.texts.entries <+: (add p.model).2.texts.entries :=
    texts ▸ List.prefix_refl p.model.texts.entries
  refine ⟨h.rows, htexts, rfl, ?_, Or.inr ⟨_, rfl, index, isFor⟩⟩
  show p.deferred ++ [item (add p.model).1] = _
  rw [hindex]

end Progress

/-- A text that is added to a pool is in the pool, behind what has been there. -/
theorem addText_pools (m : Model) (text : String) :
    m.texts.entries <+: (m.addText text).2.texts.entries ∧
      ∃ t, (m.addText text).2.texts.entries[(m.addText text).1]? = some t ∧ t.text = text := by
  unfold Model.addText TextPool.add
  cases hfind : m.texts.find? text with
  | some index =>
    obtain ⟨hlt, htext, -⟩ := List.findIdx?_eq_some_iff_getElem.mp hfind
    exact ⟨List.prefix_refl _, _, List.getElem?_eq_getElem hlt, of_decide_eq_true htext⟩
  | none => exact ⟨List.prefix_append _ _, _, List.getElem?_concat_length, rfl⟩

open Progress

variable {r : Rules} {p : Progress} {name label : String} {declared : Ty} {value : Option Value}

/-- The payload of a boolean draws it. -/
theorem plain_of_boolPayload {texts : TextPool} {payload : Payload}
    (treated : r.treatmentOf declared value = some .bool) (h : boolPayload? value = some payload) :
    Plain r texts (.part name declared value) ⟨.bool, name, none, none, 1, payload⟩ := by
  unfold boolPayload? at h
  split at h
  · cases h
    exact .bool treated
  · obtain ⟨habsent, ⟨⟩⟩ := Option.ite_none_right_eq_some.mp h
    exact .noBool treated habsent

/-- The payload of a number draws it. -/
theorem plain_of_scalarPayload {texts : TextPool} {format : Scalar.Format} {payload : Payload}
    (treated : r.treatmentOf declared value = some (.scalar format))
    (h : scalarPayload? format value = some payload) :
    Plain r texts (.part name declared value) ⟨.ofFormat format, name, none, none, 1, payload⟩ := by
  unfold scalarPayload? at h
  split at h
  · obtain ⟨rfl, ⟨⟩⟩ := Option.ite_none_right_eq_some.mp h
    exact .scalar treated
  · obtain ⟨habsent, ⟨⟩⟩ := Option.ite_none_right_eq_some.mp h
    exact .noScalar treated habsent

/-- Adding a value gives its row. -/
theorem addTreated_gains {treatment : Treatment} {result : Nat × Progress}
    (treated : r.treatmentOf declared value = some treatment)
    (h : addTreated p name label declared.strip value treatment = .ok result) :
    GainsRow r p (.part name declared value) result := by
  unfold addTreated at h
  have hrefl := List.prefix_refl p.model.texts.entries
  -- Each treatment has a case for a value of its shape, and most have one for an absent value.
  cases treatment with
  | bool =>
    dsimp only at h
    split at h
    · rename_i payload hpayload
      cases h
      exact addRow_gains (p.model.add_adds _ _ _ _ _) hrefl (plain_of_boolPayload treated hpayload)
    · cases h
  | scalar format =>
    dsimp only at h
    split at h
    · rename_i payload hpayload
      cases h
      exact addRow_gains (p.model.add_adds _ _ _ _ _) hrefl (plain_of_scalarPayload treated hpayload)
    · cases h
  | string =>
    dsimp only at h
    split at h
    · rename_i text
      cases h
      obtain ⟨hbehind, t, hpooled, rfl⟩ := addText_pools p.model text
      exact addRow_gains (p.model.addText_adds name t.text) hbehind (.text treated hpooled)
    · obtain ⟨habsent, rfl⟩ := accept_if_eq_ok.mp h
      exact addRow_gains (p.model.add_adds _ _ _ _ _) hrefl (.noText treated habsent)
  | enum =>
    dsimp only at h
    split at h
    · cases h
      exact addRow_gains (p.model.addTyped_adds _ _ _ _ _) hrefl (.enum treated)
    · split at h
      · rename_i e hdeclares
        obtain ⟨habsent, rfl⟩ := accept_if_eq_ok.mp h
        exact addRow_gains (p.model.addTyped_adds _ _ _ _ _) hrefl (.noEnum treated habsent hdeclares)
      · cases h
  | custom =>
    -- A missing value has a row only where it is declared: null is refused.
    dsimp only at h
    split at h
    · cases h
      exact addRow_gains (p.model.addTyped_adds _ _ _ _ _) hrefl (.custom treated)
    · cases h
    · cases h
      exact addRow_gains (p.model.addTyped_adds _ _ _ _ _) hrefl (.noCustom treated)
    · cases h
  | object =>
    dsimp only at h
    split at h
    · cases h
      exact addDeferred_gains (p.model.addTyped_adds _ _ _ _ _) rfl rfl (.object treated rfl)
    · obtain ⟨habsent, rfl⟩ := accept_if_eq_ok.mp h
      exact addRow_gains (p.model.addTyped_adds _ _ _ _ _) hrefl (.noObject treated habsent)
  | array =>
    -- An absent collection is put off as an empty one.
    dsimp only at h
    split at h
    · cases h
      exact addDeferred_gains (p.model.add_adds _ _ _ _ _) rfl rfl (.sequence treated (Or.inl rfl))
    · obtain ⟨habsent, rfl⟩ := accept_if_eq_ok.mp h
      exact addDeferred_gains (p.model.add_adds _ _ _ _ _) rfl rfl
        (.sequence treated (Or.inr ⟨rfl, habsent⟩))
  | dictionary =>
    dsimp only at h
    split at h
    · cases h
      exact addDeferred_gains (p.model.add_adds _ _ _ _ _) rfl rfl (.dictionary treated (Or.inl rfl))
    · obtain ⟨habsent, rfl⟩ := accept_if_eq_ok.mp h
      exact addDeferred_gains (p.model.add_adds _ _ _ _ _) rfl rfl
        (.dictionary treated (Or.inr ⟨rfl, habsent⟩))
  | dataUnit =>
    dsimp only at h
    split at h
    · cases h
      exact addDeferred_gains (p.model.addTyped_adds _ _ _ _ _) rfl rfl (.dataUnit treated rfl)
    · obtain ⟨habsent, rfl⟩ := accept_if_eq_ok.mp h
      exact addRow_gains (p.model.addTyped_adds _ _ _ _ _) hrefl (.noUnit treated habsent)

namespace Rules

/-- Whether a value may get a row. -/
def Admits (r : Rules) : Origin → Prop
  | .part _ declared value =>
    (∃ t, r.treatmentOf declared value = some t) ∧ r.keeps declared value = true
  | _ => True

/-- A value that is supported is added as it is treated. -/
theorem addRowFor_eq_of_supports {treatment : Treatment}
    (treated : r.treatment? label declared.strip value = .ok (some treatment))
    (supported : r.supports label declared value = .ok true) : r.addRowFor p name label declared value =
      (addTreated p name label declared.strip value treatment).map fun added => (some added.1, added.2) := by
  rw [← supports_strip] at supported
  unfold addRowFor
  -- A look that is made succeeds, so it makes no difference.
  simp only [treated, supported, bind, Except.bind, not_true_eq_false, if_false, ite_self]
  cases addTreated p name label declared.strip value treatment <;> rfl

/-- A value gets a row, or none where it is not usable and left out. -/
theorem addRowFor_cases {result : Option Nat × Progress}
    (h : r.addRowFor p name label declared value = .ok result) :
    (r.keeps declared value = false ∧ result = (none, p)) ∨
      (r.keeps declared value = true ∧ ∃ treatment added,
        r.treatmentOf declared value = some treatment ∧
        addTreated p name label declared.strip value treatment = .ok added ∧
        result = (some added.1, added.2)) := by
  unfold addRowFor at h
  rw [bind_eq_ok] at h
  obtain ⟨treatment, htreatment, h⟩ := h
  cases treatment with
  | none =>
    simp only [bind_eq_ok, pure_eq_ok] at h
    obtain ⟨_, hrefuse, rfl⟩ := h
    exact Or.inl ⟨keeps_eq_false hrefuse (usable_of_supports (supports_of_none htreatment)), rfl⟩
  | some treatment =>
    have htreated := treatmentOf_eq htreatment
    have hadded : (r.unknown = .skip → r.usable declared value = true) →
        (addTreated p name label declared.strip value treatment >>=
          fun x => (pure (some x.1, x.2) : Except WalkError _)) = .ok result →
        r.keeps declared value = true ∧ ∃ treatment added,
          r.treatmentOf declared value = some treatment ∧
          addTreated p name label declared.strip value treatment = .ok added ∧
          result = (some added.1, added.2) := by
      intro husable hresult
      simp only [bind_eq_ok, pure_eq_ok] at hresult
      obtain ⟨added, hadd, rfl⟩ := hresult
      refine ⟨?_, treatment, added, htreated, hadd, rfl⟩
      unfold keeps
      split
      · exact husable ‹_›
      · rfl
    -- Only a collection is looked into, and only where it may be skipped.
    dsimp only at h
    split at h
    · simp only [bind_eq_ok] at h
      obtain ⟨supported, hsupports, h⟩ := h
      rw [supports_strip] at hsupports
      split at h
      · rename_i hno
        simp only [bind_eq_ok, pure_eq_ok] at h
        obtain ⟨_, hrefuse, rfl⟩ := h
        refine Or.inl ⟨keeps_eq_false hrefuse (usable_of_supports hsupports ▸ ?_), rfl⟩
        exact Bool.eq_false_iff.mpr hno
      · rename_i hyes
        refine Or.inr (hadded (fun _ => usable_of_supports hsupports ▸ ?_) h)
        exact not_not.mp hyes
    · rename_i hlook
      refine Or.inr (hadded (fun hskip => usable_of_treatmentOf htreated ?_ ?_) h)
      · rintro rfl
        exact hlook ⟨Or.inl rfl, hskip⟩
      · rintro rfl
        exact hlook ⟨Or.inr rfl, hskip⟩

end Rules

end ObjectPack.Walk
