import ObjectPack.Proofs.Interface.Type
import ObjectPack.Proofs.Packing.Packs
import ObjectPack.Proofs.Packing.Rounds
import ObjectPack.Proofs.Packing.Transfer
import ObjectPack.Proofs.Walk.Log
import ObjectPack.Proofs.Walk.Sturdy
import ObjectPack.Proofs.Walk.Twins

/-!
# Solved models that mirror each other

A graph that is walked in two orders of fields gives two models, and solving the layout moves the rows of both
about.  Where rows that are twins have gone to, the solved models hold the same, and so do the words that
booleans have been folded into (`Walk.Laid.mirrors`): objects have their fields in the same order, collections
have not been touched, and data units of one digest are equal.
-/

namespace ObjectPack.Walk

open Outcome

/-- An object that is not there counts nothing. -/
theorem Shows.count_of_null {r : Rules} {use : Ty → Option Value → Bool} {texts : TextPool} {origins : List Origin}
    {o : Origin} {x : Row} (h : Shows r use texts origins o x) (kind : x.kind = .object)
    (null : x.value.isNull = true) : x.count = 0 := by
  cases h with
  | plain hplain =>
    cases hplain with
    | noObject _ _ => rfl
    | scalar _ | noScalar _ _ => exact absurd kind.symm (Row.ofFormat_ne rfl)
    | _ => cases kind
  | object _ _ _ _ _ => cases null
  | _ => cases kind

/-- Rows that show the same are written alike, if they count as many fields. -/
theorem writtenAlike_of_bare {x y : Row} (bare : x.bare = y.bare) (count : x.kind = .object → y.count = x.count) :
    x.WrittenAlike y := by
  obtain ⟨hkind, -, hvalue⟩ := Row.eq_of_bare bare
  refine ⟨hkind, ?_, hvalue⟩
  by_cases hobject : x.kind = .object
  · exact count hobject
  · rw [← Row.bare_count hobject, bare, Row.bare_count (hkind ▸ hobject)]

/-- A walked model, what its rows stand for, and where they are when the layout has been solved. -/
structure Laid (r : Rules) (unit : DataUnit) (top : Nat) (m m₁ : Model) (origins : List Origin) (n : Nat)
    (place : Nat → Nat) : Prop where
  pictures : Pictures r m origins
  begins : origins[top]? = some (.unit unit)
  inside : ∀ o ∈ origins, o.InUnit unit
  whole : m.Whole top
  ordered : m.Ordered
  reserved : m.Reserved
  small : m.size < Model.indexLimit
  solved : m.Solved m₁ (n + 1) place
  solvable : m₁.Solvable (fun c => (Value.dataUnit unit).HasCustom c) m.size top
  texts : m₁.texts = m.texts
  pool : m₁.TextsFrom 1

/-- Solving the layout of a walked model. -/
theorem Rules.exists_laid {r : Rules} {unit : DataUnit} {top : Nat} {m m₁ : Model} {passes : Nat}
    (walk : r.walk .empty unit = .ok (top, m)) (small : m.size < Model.indexLimit)
    (solve : m.solve = .ok (m₁, passes)) : ∃ origins n place, Laid r unit top m m₁ origins n place := by
  obtain ⟨origins, hpictures, hbegins, hinside⟩ := walk_pictures_inUnit walk
  obtain ⟨hsolvable, -⟩ := walk_solvable walk
  obtain ⟨_, hsolve, hsolvable₁⟩ := hsolvable.exists_solve small
  obtain rfl := Except.ok.inj (hsolve.symm.trans solve)
  obtain ⟨place, hsolved⟩ := Model.solve_solved hsolvable.whole hsolvable.ordered solve
  obtain ⟨n, rfl⟩ := Nat.exists_eq_add_one.mpr (Model.solve_passes_pos solve)
  obtain ⟨htexts, hsupply⟩ := Model.solve_texts solve
  refine ⟨origins, n, place, ?_⟩
  exact
    { pictures := hpictures
      begins := hbegins
      inside := hinside
      whole := hsolvable.whole
      ordered := hsolvable.ordered
      reserved := walk_reserved walk
      small := small
      solved := hsolved
      solvable := hsolvable₁
      texts := htexts
      pool := (walk_begun walk).2.keep htexts hsupply }

/-- Whether rows of two solved models correspond: twins have gone to them, or they are words that are alike. -/
def Corresponds (m₁ m₁' : Model) (origins origins' : List Origin) (place place' : Nat → Nat) (a b : Nat) : Prop :=
  (∃ i j, Twins origins origins' i j ∧ place i = a ∧ place' j = b) ∨
    ∃ w w', m₁.row a = .ok w ∧ m₁'.row b = .ok w' ∧ w.kind = .bitSet ∧ w.WrittenAlike w'

/-- Whether twins that have blocks have gone to rows of two solved models. -/
def CorrespondAsBlocks (m : Model) (origins origins' : List Origin) (place place' : Nat → Nat) (a b : Nat) : Prop :=
  ∃ i j x, Twins origins origins' i j ∧ place i = a ∧ place' j = b ∧ m.row i = .ok x ∧ x.HasBlock

/-- How rows, blocks and texts of two solved models correspond. -/
def matching (m m₁ m₁' : Model) (origins origins' : List Origin) (place place' : Nat → Nat) : Matching where
  names := m₁.texts.transfer m₁'.texts
  later := 0
  rows := Corresponds m₁ m₁' origins origins' place place'
  blocks := CorrespondAsBlocks m origins origins' place place'
  texts := TextPool.SameText m₁.texts m₁'.texts

namespace Laid

variable {r : Rules} {order : MemberOrder} {unit : DataUnit} {top top' : Nat} {m m' m₁ m₁' : Model}
  {origins origins' : List Origin} {n n' : Nat} {place place' : Nat → Nat} {i j a b : Nat} {x y s s' : Row}

/-! ### One model -/

/-- Rows show what they stand for, which is in the data unit. -/
theorem exists_origin (h : Laid r unit top m m₁ origins n place) (hx : m.row i = .ok x) :
    ∃ o, origins[i]? = some o ∧ o.InUnit unit ∧ Shows r r.usable m.texts origins o x := by
  have ho := List.getElem?_eq_getElem (h.pictures.length ▸ Model.lt_size_of_row hx)
  exact ⟨_, ho, h.inside _ (List.mem_of_getElem? ho), h.pictures.shows i x _ hx ho⟩

/-- The fields that an object has when the layout has been solved are there. -/
theorem length_fields (h : Laid r unit top m m₁ origins n place) (object : m.IsObject i x) {start : Nat}
    (hstart : x.start = some start) : (m₁.fields (m.foldedRow x)).length = (m.foldedRow x).count :=
  Model.length_fields (h.solvable.whole.inside _ _ (h.solved.row i x object.1))
    ((Model.foldedRow_kind m x).trans object.2) ((Model.foldedRow_start m x).trans hstart)

/-- A field that an object has when the layout has been solved is one of its rows. -/
theorem exists_field (h : Laid r unit top m m₁ origins n place) (object : m.IsObject i x) {start k : Nat}
    (hstart : x.start = some start) (hk : k < (m.foldedRow x).count) : ∃ s, m₁.row (start + k) = .ok s ∧
      (m₁.fields (m.foldedRow x))[k]? = some s ∧ (m.foldedRow x).Owns (start + k) := by
  have hget := List.getElem?_eq_getElem (h.length_fields object hstart ▸ hk)
  have hstart' : (m.foldedRow x).start = some start := (m.foldedRow_start x).trans hstart
  have howned := Row.ownedCount_of_object ((m.foldedRow_kind x).trans object.2)
  refine ⟨_, Model.row_eq_ok.mpr ?_, hget, start, hstart', by omega, by omega⟩
  rw [← Model.getElem?_fields hstart' hk, hget]

/-- The range of an object or of a collection is one. -/
theorem members_eq (h : Laid r unit top m m₁ origins n place) (hx : m₁.row a = .ok x)
    (kind : x.kind = .object ∨ x.kind = .array ∨ x.kind = .dictionary) {start : Nat} (hstart : x.start = some start) :
    x.members = .ok ⟨start, x.ownedCount⟩ := by
  have hinside : start + x.ownedCount ≤ m.size := by
    rcases kind with hkind | hkind
    · rw [Row.ownedCount_of_object hkind]
      exact (h.solvable.sturdy a x hx).object hkind start hstart
    · obtain ⟨_, hbegins, hle⟩ := (h.solvable.sturdy a x hx).collection hkind
      obtain rfl := Option.some.inj (hstart.symm.trans hbegins)
      exact Nat.le_trans (Nat.add_le_add_left (Model.ownedCount_le_heldCount hkind) start) hle
  have howning : x.kind ∈ Row.owningKinds := by
    rcases kind with hkind | hkind | hkind <;> rw [hkind] <;> decide
  rw [Row.members_of_start hstart howning]
  exact Model.spanFrom_of_lt (Nat.lt_of_le_of_lt hinside h.small)

/-- What a collection holds has not moved. -/
theorem held_still (h : Laid r unit top m m₁ origins n place) (hx : m.row i = .ok x) {start k : Nat}
    (hstart : x.start = some start) (hk : k < x.heldCount) : place (start + k) = start + k :=
  (h.solved.held_still h.reserved hx ⟨start, hstart, Nat.le_add_right start k, Nat.add_lt_add_left hk start⟩).2.1

/-! ### Two models -/

variable (h : Laid r unit top m m₁ origins n place) (h' : Laid (r.inOrder order) unit top' m' m₁' origins' n' place')
include h h'

/-- Objects that are twins are one object. -/
theorem exists_object (ties : ∀ object, (Value.object object).In (.dataUnit unit) → r.TiesOnly object)
    (twins : Twins origins origins' i j) (hx : m.row i = .ok x) (hy : m'.row j = .ok y) (kind : x.kind = .object)
    (present : x.value.isNull = false) : ∃ object fields fields' start start', r.TiesOnly object ∧
      ShowsObject r origins x object fields start ∧ ShowsObject (r.inOrder order) origins' y object fields' start' := by
  obtain ⟨hkind, -, hvalue⟩ := Row.eq_of_bare (twins.bare h.pictures h'.pictures hx hy)
  obtain ⟨o, hi, hj⟩ := twins
  obtain ⟨object, fields, start, hobject, hshows⟩ := (h.pictures.shows i x o hx hi).showsObject kind present
  obtain ⟨_, fields', start', hobject', hshows'⟩ :=
    (h'.pictures.shows j y o hy hj).showsObject (hkind.trans kind) (hvalue ▸ present)
  obtain rfl := Value.object.inj (Option.some.inj (hobject.symm.trans hobject'))
  exact ⟨object, fields, fields', start, start', ties _ (h.inside o (List.mem_of_getElem? hi) _ hobject), hshows,
    hshows'⟩

/-- Where the layout has been solved, what an object has for fields does not tell the orders from one another. -/
theorem solvedFields {object : Object} {fields fields' : List Field} {start start' : Nat} (ties : r.TiesOnly object)
    (shows' : ShowsObject r origins x object fields start)
    (shows'' : ShowsObject (r.inOrder order) origins' y object fields' start') (hx : m.IsObject i x)
    (hy : m'.IsObject j y) : (m'.foldedRow y).count = (m.foldedRow x).count ∧
      (m₁.fields (m.foldedRow x)).map Row.bare = (m₁'.fields (m'.foldedRow y)).map Row.bare := by
  have hfields := shows'.solvedFields h.pictures shows'' h'.pictures ties h.solved h.whole h.ordered hx h'.solved
    h'.whole h'.ordered hy
  have hcount := congrArg List.length hfields
  rw [List.length_map, List.length_map, h.length_fields hx shows'.begins, h'.length_fields hy shows''.begins] at hcount
  exact ⟨hcount.symm, hfields⟩

/-- Twins are written alike. -/
theorem writtenAlike (ties : ∀ object, (Value.object object).In (.dataUnit unit) → r.TiesOnly object)
    (twins : Twins origins origins' i j) (hx : m.row i = .ok x) (hy : m'.row j = .ok y) :
    (m.foldedRow x).WrittenAlike (m'.foldedRow y) := by
  have hbare := twins.bare h.pictures h'.pictures hx hy
  obtain ⟨hkind, -, hvalue⟩ := Row.eq_of_bare hbare
  refine writtenAlike_of_bare ?_ fun hobject => ?_
  · rw [Model.bare_foldedRow, Model.bare_foldedRow, hbare]
  · rw [Model.foldedRow_kind] at hobject
    cases hnull : x.value.isNull with
    | true =>
      obtain ⟨_, -, -, hshows⟩ := h.exists_origin hx
      obtain ⟨_, -, -, hshows'⟩ := h'.exists_origin hy
      have hzero := hshows.count_of_null hobject hnull
      have hzero' := hshows'.count_of_null (hkind.trans hobject) (hvalue ▸ hnull)
      rw [m.foldedRow_of_count hzero, m'.foldedRow_of_count hzero', hzero, hzero']
    | false =>
      obtain ⟨object, fields, fields', start, start', hties, hshows, hshows'⟩ :=
        h.exists_object h' ties twins hx hy hobject hnull
      exact (h.solvedFields h' hties hshows hshows' ⟨hx, hobject⟩ ⟨hy, hkind.trans hobject⟩).1

/-- Where the layout has been solved, fields of one object that stand at one position correspond. -/
theorem field_corresponds {object : Object} {fields fields' : List Field} {start start' k : Nat}
    (ties : r.TiesOnly object) (shows' : ShowsObject r origins x object fields start)
    (shows'' : ShowsObject (r.inOrder order) origins' y object fields' start') (hx : m.IsObject i x)
    (hy : m'.IsObject j y) (hk : k < (m.foldedRow x).count) :
    Corresponds m₁ m₁' origins origins' place place' (start + k) (start' + k) := by
  obtain ⟨hcount, hfields⟩ := h.solvedFields h' ties shows' shows'' hx hy
  obtain ⟨s, hs, hget, howns⟩ := h.exists_field hx shows'.begins hk
  obtain ⟨s', hs', hget', howns'⟩ := h'.exists_field hy shows''.begins (hcount ▸ hk)
  have hbare : s.bare = s'.bare := by
    have hmap := congrArg (fun l : List Row => l[k]?) hfields
    simp only [List.getElem?_map, hget, hget', Option.map_some, Option.some.injEq] at hmap
    exact hmap
  obtain ⟨hkind, hname, -⟩ := Row.eq_of_bare hbare
  by_cases hword : s.kind = .bitSet
  · refine Or.inr ⟨s, s', hs, hs', hword, writtenAlike_of_bare hbare fun hobject => ?_⟩
    cases hword.symm.trans hobject
  · obtain ⟨i', x', hi', hx', hplace, rfl⟩ :=
      (h.solved.owned_row h.whole.toWellFormed hx.1 howns hs).resolve_left hword
    obtain ⟨j', y', hj', hy', hplace', rfl⟩ :=
      (h'.solved.owned_row h'.whole.toWellFormed hy.1 howns' hs').resolve_left (hkind ▸ hword)
    rw [Model.foldedRow_name, Model.foldedRow_name] at hname
    refine Or.inl ⟨i', j', ?_, hplace, hplace'⟩
    exact shows'.twins h.pictures shows'' h'.pictures ties hx.2 hy.2 hi' hj' hx' hy' hname.symm

/-- What objects that are twins own corresponds when the layout has been solved. -/
theorem object_along (ties : ∀ object, (Value.object object).In (.dataUnit unit) → r.TiesOnly object)
    (twins : Twins origins origins' i j) (hx : m.IsObject i x) (hy : m'.row j = .ok y)
    (present : x.value.isNull = false) : Follows (Span.Along (Corresponds m₁ m₁' origins origins' place place'))
      (m.foldedRow x).members (m'.foldedRow y).members := by
  obtain ⟨object, fields, fields', start, start', hties, hshows, hshows'⟩ :=
    h.exists_object h' ties twins hx.1 hy hx.2 present
  have halike := h.writtenAlike h' ties twins hx.1 hy
  have hkind : (m.foldedRow x).kind = .object := (m.foldedRow_kind x).trans hx.2
  have hkind' : (m'.foldedRow y).kind = .object := halike.kind.trans hkind
  have hobject' : m'.IsObject j y := ⟨hy, (m'.foldedRow_kind y).symm.trans hkind'⟩
  rw [h.members_eq (h.solved.row i x hx.1) (Or.inl hkind) ((m.foldedRow_start x).trans hshows.begins),
    h'.members_eq (h'.solved.row j y hy) (Or.inl hkind') ((m'.foldedRow_start y).trans hshows'.begins),
    Row.ownedCount_of_object hkind, Row.ownedCount_of_object hkind']
  exact .ok ⟨halike.count, fun k hk => h.field_corresponds h' hties hshows hshows' hx hobject' hk⟩

/-- Collections that are twins have not changed, and what they hold corresponds. -/
theorem collection (ties : ∀ object, (Value.object object).In (.dataUnit unit) → r.TiesOnly object)
    (twins : Twins origins origins' i j) (hx : m.row i = .ok x) (hy : m'.row j = .ok y)
    (kind : x.kind = .array ∨ x.kind = .dictionary) : m.foldedRow x = x ∧ m'.foldedRow y = y ∧ x.WrittenAlike y ∧
      ∃ start start', x.start = some start ∧ y.start = some start' ∧
        ∀ k < x.heldCount, Corresponds m₁ m₁' origins origins' place place' (start + k) (start' + k) := by
  have halike := h.writtenAlike h' ties twins hx hy
  have hne : x.kind ≠ .object := by rcases kind with kind | kind <;> rw [kind] <;> decide
  rw [m.foldedRow_of_ne hne] at halike
  have hne' : y.kind ≠ .object := by rwa [← m'.foldedRow_kind, halike.kind]
  rw [m'.foldedRow_of_ne hne'] at halike
  obtain ⟨start, start', hstart, hstart', hcount, hheld⟩ := twins.held h.pictures h'.pictures hx hy kind
  refine ⟨m.foldedRow_of_ne hne, m'.foldedRow_of_ne hne', halike, start, start', hstart, hstart', fun k hk => ?_⟩
  exact Or.inl ⟨_, _, hheld k hk, h.held_still hx hstart hk, h'.held_still hy hstart' (hcount ▸ hk)⟩

/-- What twins own corresponds. -/
theorem members (ties : ∀ object, (Value.object object).In (.dataUnit unit) → r.TiesOnly object)
    (twins : Twins origins origins' i j) (hx : m.row i = .ok x) (hy : m'.row j = .ok y) (block : x.HasBlock) :
    Follows (Span.Along (Corresponds m₁ m₁' origins origins' place place')) (m.foldedRow x).members
      (m'.foldedRow y).members := by
  rcases block with ⟨hpresent, hkind | ⟨hkind, -⟩⟩
  · exact h.object_along h' ties twins ⟨hx, hkind⟩ hy (by rw [hpresent]; rfl)
  · obtain ⟨hsame, hsame', halike, start, start', hstart, hstart', hheld⟩ := h.collection h' ties twins hx hy hkind
    have hmoved := h.solved.row i x hx
    have hmoved' := h'.solved.row j y hy
    rw [hsame] at hmoved ⊢
    rw [hsame'] at hmoved' ⊢
    rw [h.members_eq hmoved (Or.inr hkind) hstart, h'.members_eq hmoved' (Or.inr (halike.kind ▸ hkind)) hstart']
    refine .ok ⟨?_, fun k hk => hheld k (Nat.lt_of_lt_of_le hk (Model.ownedCount_le_heldCount hkind))⟩
    show y.ownedCount = x.ownedCount
    unfold Row.ownedCount
    rw [halike.kind, halike.count]

/-- The first elements of twins correspond. -/
theorem firstElements (ties : ∀ object, (Value.object object).In (.dataUnit unit) → r.TiesOnly object)
    (twins : Twins origins origins' i j) (hx : m.row i = .ok x) (hy : m'.row j = .ok y) (block : x.HasBlock) :
    Follows (fun e e' => Option.Rel (Corresponds m₁ m₁' origins origins' place place') e.1 e'.1 ∧
        Option.Rel (Corresponds m₁ m₁' origins origins' place place') e.2 e'.2)
      (m.foldedRow x).firstElements (m'.foldedRow y).firstElements := by
  -- Objects have no elements, and collections have not moved.
  rcases block with ⟨-, hkind | ⟨hkind, -⟩⟩
  · have halike := h.writtenAlike h' ties twins hx hy
    have hobject : (m.foldedRow x).kind = .object := (m.foldedRow_kind x).trans hkind
    have hnone : ∀ {z : Row}, z.kind = .object → z.firstElements = .ok (none, none) := by
      intro z hz
      unfold Row.firstElements
      rw [hz]
      cases z.start <;> rfl
    rw [hnone hobject, hnone (halike.kind.trans hobject)]
    exact .ok ⟨.none, .none⟩
  · obtain ⟨hsame, hsame', halike, start, start', hstart, hstart', hheld⟩ := h.collection h' ties twins hx hy hkind
    rw [hsame, hsame']
    unfold Row.firstElements
    rw [hstart, hstart', halike.kind, halike.count]
    rcases hkind with hkind | hkind
    · rw [Model.heldCount_of_array hkind] at hheld
      rw [hkind]
      exact .ok ⟨.some (hheld 0 (by omega)), .none⟩
    · rw [Model.heldCount_of_dictionary hkind] at hheld
      have hlt := Nat.lt_of_le_of_lt (held_le_size h.reserved hx (Or.inr hkind) hstart) h.small
      have hlt' := Nat.lt_of_le_of_lt (held_le_size h'.reserved hy (Or.inr (halike.kind.trans hkind)) hstart') h'.small
      rw [Model.heldCount_of_dictionary hkind] at hlt
      rw [Model.heldCount_of_dictionary (halike.kind.trans hkind), halike.count] at hlt'
      rw [hkind]
      dsimp only
      rw [Model.spanFrom_of_lt (show start + max x.count 1 < Model.indexLimit by omega),
        Model.spanFrom_of_lt (show start' + max x.count 1 < Model.indexLimit by omega)]
      exact .ok ⟨.some (hheld 0 (by omega)), .some (hheld (max x.count 1) (by omega))⟩

/-- Where the roots of twins stand, corresponding objects stand. -/
theorem root (units : Rules.DigestsTellUnits (.dataUnit unit)) (twins : Twins origins origins' i j) (hx : m.row i = .ok x)
    (hy : m'.row j = .ok y) {signature : Digest} (value : x.value = .dataUnit signature) {root : Nat}
    (hroot : x.start = some root) : ∃ root', y.start = some root' ∧
      CorrespondAsBlocks m origins origins' place place' root root' := by
  have hvalue : y.value = .dataUnit signature :=
    (Row.eq_of_bare (twins.bare h.pictures h'.pictures hx hy)).2.2.trans value
  obtain ⟨_, _, -, hshows'⟩ := h'.exists_origin hy
  obtain ⟨root', hroot'⟩ := hshows'.start_of_dataUnit hvalue
  refine ⟨root', hroot', ?_⟩
  -- The roots belong to data units of one digest, which are one data unit.
  obtain ⟨k, hfirst⟩ := h.pictures.introduced i x signature root hx value hroot
  obtain ⟨k', hfirst'⟩ := h'.pictures.introduced j y signature root' hy hvalue hroot'
  obtain ⟨o, first, ho, hin, hsame, hstands⟩ := hfirst.unit
  obtain ⟨o', first', ho', hin', hsame', hstands'⟩ := hfirst'.unit
  obtain rfl := units first first' (h.inside o (List.mem_of_getElem? ho) _ hin)
    (h'.inside o' (List.mem_of_getElem? ho') _ hin') (hsame.trans hsame'.symm)
  have hkind := (h.whole.fits i x hx).kind_of_dataUnit value
  have hkind' := (h'.whole.fits j y hy).kind_of_dataUnit hvalue
  obtain ⟨-, hplace, object, hobject, hpresent, -⟩ := h.solved.root i x root hx hkind hroot
  obtain ⟨-, hplace', -⟩ := h'.solved.root j y root' hy hkind' hroot'
  exact ⟨root, root', object, ⟨_, hstands, hstands'⟩, hplace, hplace', hobject.1, hpresent, Or.inl hobject.2⟩

/-- Texts of twins are equal. -/
theorem text (twins : Twins origins origins' i j) (hx : m.row i = .ok x) (hy : m'.row j = .ok y)
    (kind : x.kind = .string) (present : x.value = .present) {index : Nat} (hindex : x.start = some index) :
    ∃ index', y.start = some index' ∧ TextPool.SameText m.texts m'.texts index index' := by
  obtain ⟨hkind, -, hvalue⟩ := Row.eq_of_bare (twins.bare h.pictures h'.pictures hx hy)
  obtain ⟨o, hi, hj⟩ := twins
  obtain ⟨_, t, hstart, ht, htext⟩ := (h.pictures.shows i x o hx hi).text kind present
  obtain ⟨index', t', hstart', ht', htext'⟩ :=
    (h'.pictures.shows j y o hy hj).text (hkind.trans kind) (hvalue.trans present)
  obtain rfl := Option.some.inj (hindex.symm.trans hstart)
  exact ⟨index', hstart', t, t', ht, ht', Value.text.inj (Option.some.inj (htext'.symm.trans htext))⟩

/-- Rows that correspond are words, or twins have gone to them. -/
theorem exists_twins (pair : Corresponds m₁ m₁' origins origins' place place' a b) (hs : m₁.row a = .ok s)
    (kind : s.kind ≠ .bitSet) : ∃ i j x y, Twins origins origins' i j ∧ place i = a ∧ place' j = b ∧ m.row i = .ok x ∧
      m'.row j = .ok y ∧ s = m.foldedRow x ∧ m₁'.row b = .ok (m'.foldedRow y) := by
  rcases pair with ⟨i, j, htwins, rfl, rfl⟩ | ⟨w, _, hw, -, hword, -⟩
  · obtain ⟨x, y, hx, hy⟩ := htwins.exists_rows h.pictures h'.pictures
    exact ⟨i, j, x, y, htwins, rfl, rfl, hx, hy, Except.ok.inj (hs.symm.trans (h.solved.row i x hx)),
      h'.solved.row j y hy⟩
  · obtain rfl := Except.ok.inj (hw.symm.trans hs)
    exact absurd hword kind

/-- Solved models of one graph mirror each other, if the order of fields decides nothing but ties, digests tell data
units apart, and checksums tell texts apart. -/
theorem mirrors (ties : ∀ object, (Value.object object).In (.dataUnit unit) → r.TiesOnly object)
    (units : Rules.DigestsTellUnits (.dataUnit unit))
    (apart : ∀ t ∈ m₁.texts.entries, ∀ t' ∈ m₁.texts.entries, t.checksum = t'.checksum → t.text = t'.text) :
    m₁.Mirrors (matching m m₁ m₁' origins origins' place place') m₁' where
  -- Two rows correspond as twins, or as words that hold alike booleans in alike order.
  row := by
    rintro a b (⟨i, j, htwins, rfl, rfl⟩ | ⟨w, w', hw, hw', -, halike⟩)
    · obtain ⟨x, y, hx, hy⟩ := htwins.exists_rows h.pictures h'.pictures
      rw [h.solved.row i x hx, h'.solved.row j y hy]
      exact .ok (h.writtenAlike h' ties htwins hx hy)
    · rw [hw, hw']
      exact .ok halike
  slot := by
    rintro a b ⟨i, j, x, htwins, hplace, hplace', -⟩
    exact Or.inl ⟨i, j, htwins, hplace, hplace'⟩
  block := by
    intro a b s hpair hs hblock
    have hword : s.kind ≠ .bitSet := fun hword => by
      rcases hblock.2 with hkind | ⟨hkind | hkind, -⟩ <;> cases hword.symm.trans hkind
    obtain ⟨i, j, x, y, htwins, hplace, hplace', hx, -, rfl, -⟩ := h.exists_twins h' hpair hs hword
    exact ⟨i, j, x, htwins, hplace, hplace', hx, Model.hasBlock_foldedRow.mp hblock⟩
  members := by
    rintro a b s s' ⟨i, j, x, htwins, rfl, rfl, hx, hblock⟩ hs hs'
    obtain ⟨_, y, -, hy⟩ := htwins.exists_rows h.pictures h'.pictures
    obtain rfl := Except.ok.inj ((h.solved.row i x hx).symm.trans hs)
    obtain rfl := Except.ok.inj ((h'.solved.row j y hy).symm.trans hs')
    exact h.members h' ties htwins hx hy hblock
  elements := by
    rintro a b s s' ⟨i, j, x, htwins, rfl, rfl, hx, hblock⟩ hs hs'
    obtain ⟨_, y, -, hy⟩ := htwins.exists_rows h.pictures h'.pictures
    obtain rfl := Except.ok.inj ((h.solved.row i x hx).symm.trans hs)
    obtain rfl := Except.ok.inj ((h'.solved.row j y hy).symm.trans hs')
    exact h.firstElements h' ties htwins hx hy hblock
  text := by
    intro a b s s' hpair hs hs' hkind hpresent index hindex
    obtain ⟨i, j, x, y, htwins, -, -, hx, hy, rfl, hmoved⟩ := h.exists_twins h' hpair hs (by rw [hkind]; decide)
    obtain rfl := Except.ok.inj (hmoved.symm.trans hs')
    rw [Model.foldedRow_kind] at hkind
    rw [Model.foldedRow_value] at hpresent
    rw [Model.foldedRow_start] at hindex ⊢
    obtain ⟨index', hindex', htext⟩ := h.text h' htwins hx hy hkind hpresent hindex
    refine ⟨index', hindex', ?_⟩
    show TextPool.SameText m₁.texts m₁'.texts index index'
    rwa [h.texts, h'.texts]
  root := by
    intro a b s s' signature hpair hs hs' hvalue root hroot
    have hkind := (h.solvable.whole.fits a s hs).kind_of_dataUnit hvalue
    obtain ⟨i, j, x, y, htwins, -, -, hx, hy, rfl, hmoved⟩ := h.exists_twins h' hpair hs (by rw [hkind]; decide)
    obtain rfl := Except.ok.inj (hmoved.symm.trans hs')
    rw [Model.foldedRow_value] at hvalue
    rw [Model.foldedRow_start] at hroot ⊢
    exact h.root h' units htwins hx hy hvalue hroot
  entry := h.pool.counterparts h'.pool
  order := h.pool.writingOrder h'.pool apart

/-- Both solved models give packing rounds enough. -/
theorem roundsSuffice (ties : ∀ object, (Value.object object).In (.dataUnit unit) → r.TiesOnly object)
    (registry : Registry) (platform : Platform) (encoding : PointerEncoding) :
    m₁.RoundsSuffice (matching m m₁ m₁' origins origins' place place') registry m₁'
      (.blank platform encoding m₁.supply) (.blank platform encoding m₁'.supply) := by
  refine Model.roundsSuffice registry h.solvable.whole h'.solvable.whole h'.solvable.ordered ?_ platform encoding
  rintro a b ⟨i, j, x, htwins, rfl, rfl, hx, hblock⟩ s hs
  obtain ⟨_, y, -, hy⟩ := htwins.exists_rows h.pictures h'.pictures
  obtain rfl := Except.ok.inj ((h'.solved.row j y hy).symm.trans hs)
  rw [(h.writtenAlike h' ties htwins hx hy).kind, Model.foldedRow_kind]
  rcases hblock.2 with hkind | ⟨hkind | hkind, -⟩ <;> rw [hkind] <;> decide

/-- The rows of the data unit correspond. -/
theorem top_corresponds : Corresponds m₁ m₁' origins origins' place place' top top' := by
  refine Or.inl ⟨top, top', ⟨_, h.begins, h'.begins⟩, ?_, ?_⟩
  · exact h.solved.still top fun k o ho => h.whole.notTop k o ho.1 ho.kind_ne
  · exact h'.solved.still top' fun k o ho => h'.whole.notTop k o ho.1 ho.kind_ne

/-- Whatever the one solved model is packed into, the other one is packed into under other names. -/
theorem packFrom_follows (ties : ∀ object, (Value.object object).In (.dataUnit unit) → r.TiesOnly object)
    (units : Rules.DigestsTellUnits (.dataUnit unit))
    (apart : ∀ t ∈ m₁.texts.entries, ∀ t' ∈ m₁.texts.entries, t.checksum = t'.checksum → t.text = t'.text)
    (same : ∀ text, m₁.Pools text ↔ m₁'.Pools text) (registry : Registry) (platform : Platform)
    (encoding : PointerEncoding) : Follows (Draft.Renamed (m₁.texts.transfer m₁'.texts) 0)
      (Packing.packFrom m₁ registry (.blank platform encoding m₁.supply) top)
      (Packing.packFrom m₁' registry (.blank platform encoding m₁'.supply) top') :=
  Packing.packFrom_mirrors (h.mirrors h' ties units apart) (h.roundsSuffice h' ties registry platform encoding)
    (h.pool.blank_renamed h'.pool same platform encoding) (h.top_corresponds h')

end Laid

end ObjectPack.Walk
