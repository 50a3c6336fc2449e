import ObjectPack.Interface.Declaration
import ObjectPack.Proofs.Interface.Type

/-!
# Objects with the same members

Rows are alike if a generated struct gives them the same name, the same type and the same room
(`Row.Alike`).  Folding and sorting look at nothing else, so fields that are alike stay alike
(`Model.foldedFields_alike`, `Model.sorted_alike`), and objects whose fields are alike have the same members
at the same offsets (`Model.sameMembers_of_alike`).
-/

namespace ObjectPack

open Outcome

/-- Whether two rows have the same name, kind, room and type as fields. -/
structure Row.Alike (m : Model) (x y : Row) : Prop where
  kind : x.kind = y.kind
  name : x.name = y.name
  alignment : ∃ n, x.alignment? = some n ∧ y.alignment? = some n
  size : ∃ n, x.size? = some n ∧ y.size? = some n
  type : ∃ T, m.rowType m.size x = some T ∧ m.rowType m.size y = some T

namespace Span

variable {α ε : Type} {f : α → Nat → Except ε α} {n start start' : Nat}

/-- Folds over two ranges are the same if their steps are. -/
theorem foldFrom_congr (h : ∀ x < n, ∀ a, f a (start + x) = f a (start' + x)) (a : α) :
    foldFrom f n start a = foldFrom f n start' a := by
  induction n generalizing start start' a with
  | zero => rfl
  | succ n ih =>
    have hfirst := h 0 (Nat.zero_lt_succ n) a
    rw [Nat.add_zero, Nat.add_zero] at hfirst
    unfold foldFrom
    rw [hfirst]
    split
    · refine ih (fun x hx b => ?_) _
      have hnext := h (x + 1) (Nat.succ_lt_succ hx) b
      rwa [Nat.add_comm x 1, ← Nat.add_assoc, ← Nat.add_assoc] at hnext
    · rfl

theorem mapM_ok {β : Type} {g : Nat → Except ε β} {l : List β}
    (h : ∀ x b, l[x]? = some b → g (start + x) = .ok b) : (Span.mk start l.length).mapM g = .ok l := by
  have hfold : ∀ found, foldFrom (fun found i => (g i).map fun b => b :: found) l.length start found =
      .ok (l.reverse ++ found) := by
    induction l generalizing start with
    | nil => exact fun _ => rfl
    | cons b l ih =>
      intro found
      rw [List.length_cons, foldFrom_succ_eq_ok]
      refine ⟨b :: found, map_eq_ok.mpr ⟨b, h 0 b rfl, rfl⟩, ?_⟩
      rw [ih (fun x c hc => ?_), List.reverse_cons, List.append_assoc]
      · rfl
      · rw [Nat.add_assoc, Nat.add_comm 1]
        exact h (x + 1) c hc
  unfold mapM foldM
  rw [hfold, List.append_nil]
  exact congrArg Except.ok (List.reverse_reverse l)

end Span

namespace Model

variable {m : Model} {i j k n start start' : Nat} {a b a' b' x y : Row} {l l' : List Row}

/-! ### Folding and sorting -/

theorem order_alike (h : a.Alike m a') (h' : b.Alike m b') : a.order b = a'.order b' := by
  obtain ⟨n, hn, hn'⟩ := h.alignment
  obtain ⟨k, hk, hk'⟩ := h'.alignment
  rw [Row.order, Row.order, hn, hn', hk, hk', h.kind, h'.kind, h.name, h'.name]

theorem bubble_alike (h : a.Alike m b) (alike : List.Forall₂ (Row.Alike m) l l') :
    List.Forall₂ (Row.Alike m) (bubble a l) (bubble b l') := by
  induction alike generalizing a b with
  | nil => exact .cons h .nil
  | cons h' _ ih =>
    unfold bubble
    rw [order_alike h h']
    split
    · exact .cons h' (ih h)
    · exact .cons h (ih h')

theorem bubblePass_alike (alike : List.Forall₂ (Row.Alike m) l l') :
    List.Forall₂ (Row.Alike m) (bubblePass l) (bubblePass l') := by
  cases alike with
  | nil => exact .nil
  | cons h alike => exact bubble_alike h alike

theorem iterate_alike {f : List Row → List Row}
    (step : ∀ l l', List.Forall₂ (Row.Alike m) l l' → List.Forall₂ (Row.Alike m) (f l) (f l'))
    (n : Nat) (alike : List.Forall₂ (Row.Alike m) l l') :
    List.Forall₂ (Row.Alike m) (f^[n] l) (f^[n] l') := by
  induction n generalizing l l' with
  | zero => exact alike
  | succ n ih => exact ih (step l l' alike)

/-- Fields that are alike are sorted alike. -/
theorem sorted_alike (alike : List.Forall₂ (Row.Alike m) l l') :
    List.Forall₂ (Row.Alike m) (sorted l) (sorted l') := by
  rw [sorted, sorted, alike.length_eq]
  exact iterate_alike (fun _ _ => bubblePass_alike) _ alike

theorem bitSetRow_alike (m : Model) (start start' : Nat) (alike : List.Forall₂ (Row.Alike m) l l') :
    (bitSetRow start l).Alike m (bitSetRow start' l') where
  kind := rfl
  name := by
    cases alike with
    | nil => rfl
    | cons h _ => exact h.name
  alignment := ⟨_, rfl, rfl⟩
  size := ⟨_, rfl, rfl⟩
  type := ⟨_, rfl, rfl⟩

theorem bitSetRows_alike (m : Model) (groups start start' : Nat)
    (alike : List.Forall₂ (Row.Alike m) l l') :
    List.Forall₂ (Row.Alike m) (bitSetRows groups start l) (bitSetRows groups start' l') := by
  induction groups generalizing start start' l l' with
  | zero => exact .nil
  | succ groups ih =>
    exact .cons (bitSetRow_alike m start start' (List.forall₂_take _ alike))
      (ih _ _ (List.forall₂_drop _ alike))

/-- Fields that are alike are folded alike. -/
theorem foldedFields_alike (start start' : Nat) (alike : List.Forall₂ (Row.Alike m) l l') :
    List.Forall₂ (Row.Alike m) (foldedFields start l) (foldedFields start' l') := by
  have hfilter : ∀ p : Kind → Bool,
      List.Forall₂ (Row.Alike m) (l.filter fun r => p r.kind) (l'.filter fun r => p r.kind) := by
    intro p
    refine List.rel_filter (fun x y h => ?_) alike
    show p x.kind = true ↔ p y.kind = true
    rw [h.kind]
  have hbools := hfilter fun kind => decide (kind = .bool)
  unfold foldedFields
  rw [hbools.length_eq]
  exact List.rel_append (hfilter fun kind => decide (kind ≠ .bool)) (bitSetRows_alike m _ _ _ hbools)

theorem alike_face : x.face.Alike m y.face ↔ x.Alike m y := by
  constructor <;> intro h
  · exact ⟨by simpa using h.kind, by simpa using h.name, by simpa using h.alignment, by simpa using h.size,
      by simpa using h.type⟩
  · exact ⟨by simpa using h.kind, by simpa using h.name, by simpa using h.alignment, by simpa using h.size,
      by simpa using h.type⟩

theorem faces_alike : List.Forall₂ (Row.Alike m) (l.map Row.face) (l'.map Row.face) ↔
    List.Forall₂ (Row.Alike m) l l' := by
  rw [List.forall₂_map_left_iff, List.forall₂_map_right_iff]
  simp only [alike_face]

/-- Where the layout has been solved, objects whose fields have been alike have fields that are alike. -/
theorem Solved.fields_alike {m₀ : Model} {top passes : Nat} {place : Nat → Nat} {o o' : Row}
    (solved : m₀.Solved m passes place) (whole : m₀.Whole top) (ordered : m₀.Ordered)
    (object : m₀.IsObject i o) (object' : m₀.IsObject j o')
    (alike : List.Forall₂ (Row.Alike m) (m₀.fields o) (m₀.fields o')) :
    List.Forall₂ (Row.Alike m) (m.fields (m₀.foldedRow o)) (m.fields (m₀.foldedRow o')) := by
  obtain ⟨start, hfields⟩ := solve_fields solved whole ordered object
  obtain ⟨start', hfields'⟩ := solve_fields solved whole ordered object'
  rw [← faces_alike, hfields, hfields']
  exact iterate_alike (fun _ _ => sorted_alike) passes (faces_alike.mpr (foldedFields_alike start start' alike))

/-! ### Members -/

/-- The fields that a generated struct declares for the object of row `i`. -/
def declaredFields (m : Model) (i : Nat) : Except Fault (List (String × FieldType)) := do
  let members ← m.members i
  members.mapM fun j => do
    let type ← m.fieldType j
    let row ← m.row j
    return (row.name, type)

/-- A struct has the getters and the fields of its members, one member after another. -/
theorem structDeclaration_eq_ok {name : String} {s : Interface.StructDeclaration}
    (h : m.structDeclaration name i = .ok s) : ∃ span getters, m.members i = .ok span ∧
      span.mapM m.getters = .ok getters ∧ s.getters = getters.flatten ∧ m.declaredFields i = .ok s.fields ∧
      s.fields.length = span.length ∧ ∀ k f, s.fields[k]? = some f → m.fieldType (span.start + k) = .ok f.2 ∧
        ∃ row, m.row (span.start + k) = .ok row ∧ row.name = f.1 := by
  unfold structDeclaration at h
  simp only [bind_eq_ok, pure_eq_ok] at h
  obtain ⟨span, hspan, getters, hgetters, fields, hfields, rfl⟩ := h
  obtain ⟨hlength, hfield⟩ := Span.mapM_eq_ok hfields
  refine ⟨span, getters, hspan, hgetters, rfl, bind_eq_ok.mpr ⟨span, hspan, hfields⟩, hlength, fun k f hf => ?_⟩
  obtain ⟨type, htype, hrest⟩ := bind_eq_ok.mp (hfield k f hf)
  obtain ⟨row, hrow, hpair⟩ := bind_eq_ok.mp hrest
  obtain rfl := pure_eq_ok.mp hpair
  exact ⟨htype, row, hrow, rfl⟩

theorem structDeclaration_fields {name : String} {s : Interface.StructDeclaration}
    (h : m.structDeclaration name i = .ok s) : m.declaredFields i = .ok s.fields := by
  obtain ⟨-, -, -, -, -, hfields, -⟩ := structDeclaration_eq_ok h
  exact hfields

/-- Whether two objects have the same members, by names and types, at the same offsets. -/
def SameMembers (m : Model) (i j : Nat) : Prop :=
  ∃ fields, m.declaredFields i = .ok fields ∧ m.declaredFields j = .ok fields ∧
    m.memberOffsets i = m.memberOffsets j

/-- The names and the types of rows that are alike. -/
theorem exists_declared (alike : List.Forall₂ (Row.Alike m) l l') :
    ∃ fields : List (String × FieldType), fields.length = l.length ∧
      List.Forall₂ (fun r f => r.name = f.1 ∧ m.rowType m.size r = some f.2) l fields ∧
      List.Forall₂ (fun r f => r.name = f.1 ∧ m.rowType m.size r = some f.2) l' fields := by
  induction alike with
  | nil => exact ⟨[], rfl, .nil, .nil⟩
  | cons h _ ih =>
    obtain ⟨fields, hlength, hfirst, hsecond⟩ := ih
    obtain ⟨T, hT, hT'⟩ := h.type
    exact ⟨(_, T) :: fields, congrArg (· + 1) hlength, .cons ⟨rfl, hT⟩ hfirst, .cons ⟨h.name.symm, hT'⟩ hsecond⟩

theorem fieldType_eq (hrow : m.row i = .ok x) {T : FieldType} (type : m.rowType m.size x = some T) :
    m.fieldType i = .ok T := by
  rw [← toOption_eq_some, fieldType, fieldTypeWithin_eq hrow, type]

theorem declaredFields_eq {fields : List (String × FieldType)}
    (members : m.members i = .ok ⟨start, fields.length⟩)
    (rows : ∀ x r, l[x]? = some r → m.row (start + x) = .ok r)
    (declared : List.Forall₂ (fun r f => r.name = f.1 ∧ m.rowType m.size r = some f.2) l fields) :
    m.declaredFields i = .ok fields := by
  unfold declaredFields
  rw [members]
  refine Span.mapM_ok fun x f hf => ?_
  have hx : x < l.length := declared.length_eq ▸ (List.getElem?_eq_some_iff.mp hf).1
  obtain ⟨hlt, rfl⟩ := List.getElem?_eq_some_iff.mp hf
  obtain ⟨hname, htype⟩ := declared.get hx hlt
  have hrow := rows x _ (List.getElem?_eq_getElem hx)
  simp only [bind_eq_ok, pure_eq_ok]
  exact ⟨_, fieldType_eq hrow htype, _, hrow, Prod.ext hname rfl⟩

theorem placeRow_alike (hx : m.row i = .ok x) (hy : m.row j = .ok y) (alike : x.Alike m y) (offset : Nat) :
    m.placeRow offset i = m.placeRow offset j := by
  obtain ⟨a, ha, ha'⟩ := alike.alignment
  obtain ⟨s, hs, hs'⟩ := alike.size
  have halignment : ∀ {k z}, m.row k = .ok z → z.alignment? = some a → m.alignment k = .ok a := by
    intro k z hz hza
    unfold alignment
    rw [hz]
    simp only [bind_eq_ok, Except.ok.injEq, exists_eq_left', hza, pure_eq_ok]
  have hsize : ∀ {k z}, m.row k = .ok z → z.size? = some s → m.byteSize k = .ok s := by
    intro k z hz hzs
    unfold byteSize
    rw [hz]
    simp only [bind_eq_ok, Except.ok.injEq, exists_eq_left', hzs, pure_eq_ok]
  unfold placeRow
  rw [halignment hx ha, halignment hy ha', hsize hx hs, hsize hy hs']

/-- Objects whose fields are alike have the same members at the same offsets. -/
theorem sameMembers_of_alike (members : m.members i = .ok ⟨start, l.length⟩)
    (members' : m.members j = .ok ⟨start', l'.length⟩)
    (rows : ∀ x r, l[x]? = some r → m.row (start + x) = .ok r)
    (rows' : ∀ x r, l'[x]? = some r → m.row (start' + x) = .ok r)
    (alike : List.Forall₂ (Row.Alike m) l l') : m.SameMembers i j := by
  obtain ⟨fields, hlength, hfirst, hsecond⟩ := exists_declared alike
  refine ⟨fields, declaredFields_eq (hlength ▸ members) rows hfirst, ?_, ?_⟩
  · refine declaredFields_eq ?_ rows' hsecond
    rw [hlength, alike.length_eq]
    exact members'
  · unfold memberOffsets
    rw [members, members']
    show (Span.foldFrom _ l.length start _ >>= _) = (Span.foldFrom _ l'.length start' _ >>= _)
    rw [← alike.length_eq, Span.foldFrom_congr]
    rintro x hx ⟨offsets, offset⟩
    have hx' := alike.length_eq ▸ hx
    have hrow := rows x _ (List.getElem?_eq_getElem hx)
    have hrow' := rows' x _ (List.getElem?_eq_getElem hx')
    dsimp only
    rw [placeRow_alike hrow hrow' (alike.get hx hx')]

end Model

end ObjectPack
