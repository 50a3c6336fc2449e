import ObjectPack.Proofs.Model.Solve
import ObjectPack.Proofs.Walk.Advance
import ObjectPack.Proofs.Walk.Sound

/-!
# Walks give whole models

Every turn of a walk keeps what holds while an object graph is walked (`Walk.Rules.advance_continues`),
so it holds at the end, however many rounds have been made (`Walk.Rules.walk_whole`).
-/

namespace ObjectPack.Walk.Rules

open Outcome Progress

variable {r : Rules} {p p₁ p' : Progress} {top row : Nat} {waiting : List Deferred}

/-! ### Data units -/

/-- What the row of a data unit owns after its turn. -/
theorem eq_of_owns_root {r : Row} {root j : Nat} (owns : r.Owns j) (kind : r.kind = .dataUnit)
    (start : r.start = some root) (count : r.count = 1) : j = root := by
  obtain ⟨root', hroot', hle, hlt⟩ := owns
  rw [start] at hroot'
  cases hroot'
  have hcount : r.ownedCount = 1 := by rw [Row.ownedCount, kind, count]
  omega

/-- A data unit that has been met gets the root that it has got. -/
theorem addRoot_met {unit : DataUnit} {root : Nat} (h : p.Sound top (.dataUnit row unit :: waiting))
    (known : p.units.lookup (.ofText unit.signature) = some root) :
    p.Continues (p.setRange row root 1) top waiting := by
  obtain ⟨r₀, hr₀, hof⟩ := h.waits _ List.mem_cons_self
  have htakes : Takes p p (p.setRange row root 1) (.dataUnit row unit) _ [] [] :=
    ⟨.refl p, Model.modify_changes hr₀ ({ · with start := some root, count := 1 }), hof.kind,
      hof.value⟩
  obtain ⟨object, hobject, -⟩ := (h.met _ root known).1
  refine ⟨[], (List.append_nil _).symm, ?_⟩
  refine h.take htakes ?_ (fun j hholds => absurd hholds (htakes.not_holds rfl j))
    ⟨fun _ _ => id, fun _ _ => Or.inl, ?_⟩ (Or.inl Bare.nil)
  · intro j howns
    obtain rfl := eq_of_owns_root howns hof.kind rfl rfl
    refine ⟨?_, Or.inr ⟨rfl, _, known⟩⟩
    rw [htakes.size_eq]
    exact Model.lt_size_of_row hobject
  · intro s root' hs hstart
    obtain rfl := Payload.dataUnit.inj (hof.value.symm.trans hs)
    cases hstart
    exact ⟨rfl, known⟩

/-- A data unit that has not been met gets a root of its own. -/
theorem addRoot_new {unit : DataUnit} {later : List Deferred} {object : Row}
    (h : p.Sound top (.dataUnit row unit :: waiting))
    (unknown : p.units.lookup (.ofText unit.signature) = none)
    (grows : p.Grows p₁ [object] later) (kind : object.kind = .object)
    (value : object.value = .present) :
    p.Continues ({ p₁ with units := (.ofText unit.signature, p.size) :: p.units }.setRange row p.size 1)
      top waiting := by
  obtain ⟨r₀, hr₀, hof⟩ := h.waits _ List.mem_cons_self
  -- The root gets the row behind all others, and the row of the data unit owns just this one.
  set p' := { p₁ with units := (.ofText unit.signature, p.size) :: p.units }.setRange row p.size 1
    with hp'
  have hinside : row < p.size := Model.lt_size_of_row hr₀
  have htakes : Takes p p₁ p' (.dataUnit row unit) _ [object] later :=
    ⟨grows, Model.modify_changes (grows.row_old hr₀)
      ({ · with start := some p.size, count := 1 }), hof.kind, hof.value⟩
  have hself : p'.model.row row = .ok _ := htakes.row_self hinside
  have hobject : p'.model.HasObject p.size := ⟨_, htakes.row_new (k := 0) hinside rfl, kind, value⟩
  have hreached : p'.model.Reaches top p.size :=
    .root (htakes.reaches h (h.reached _ List.mem_cons_self not_false)) hself hof.value rfl
  have hsize : p'.size = p.size + 1 := htakes.size_eq
  refine ⟨later, grows.deferred, h.take htakes ?_
    (fun j hholds => absurd hholds (htakes.not_holds rfl j)) ⟨?_, ?_, ?_⟩ (Or.inr ?_)⟩
  · intro j howns
    obtain rfl := eq_of_owns_root howns hof.kind rfl rfl
    exact ⟨by omega, Or.inl (Nat.le_refl _)⟩
  · exact fun s root hs => lookup_met_cons_of_unknown unknown hs
  · intro s root hs
    rcases eq_or_lookup_of_met_cons hs with ⟨-, rfl⟩ | hold
    · exact Or.inr ⟨rfl, rfl, hobject, hreached⟩
    · exact Or.inl hold
  · intro s root hs hstart
    obtain rfl := Payload.dataUnit.inj (hof.value.symm.trans hs)
    cases hstart
    exact ⟨rfl, List.lookup_cons_self⟩
  · intro j hle hlt
    obtain rfl : j = p.size := by omega
    exact hreached

/-! ### Turns -/

theorem named_named (p : Progress) (i : Nat) (base : Option String) : Named p (p.named i base) i := by
  cases base with
  | none => exact Or.inl rfl
  | some base => exact Or.inr ⟨base, rfl⟩

/-- Every turn keeps a walk sound. -/
theorem advance_continues {item : Deferred} (h : p.Sound top (item :: waiting))
    (step : p.Advance item p') : p.Continues p' top waiting := by
  -- A turn that adds rows gives them to the row of the value; what remains to be said is
  -- that the row then owns and holds just as many.
  cases step with
  | fields grows =>
    refine h.take_range Kind.noConfusion grows (Or.inl rfl) (fun s hkind _ hcount => Or.inl ⟨id, rfl, ?_⟩)
      fun s hkind _ => Or.inl ?_
    · rw [Row.ownedCount_of_object hkind, hcount]
    · rw [Row.heldCount, hkind]
      rfl
  | declared grows bare width =>
    have hkind : item.kind ≠ .dataUnit := by
      rcases width with ⟨hkind, -⟩ | ⟨hkind, -⟩ <;> rw [hkind] <;> decide
    refine h.take_range hkind grows (Or.inl rfl) (fun s hs _ hcount => Or.inr ⟨bare, ?_⟩)
      fun s hs hcount => Or.inr ⟨rfl, ?_⟩
    · rcases width with ⟨hkind, -⟩ | ⟨hkind, -⟩ <;> rw [Row.ownedCount, hs.trans hkind, hcount]
    · rcases width with ⟨hkind, hlength⟩ | ⟨hkind, hlength⟩
      · rw [Row.heldCount, hs.trans hkind, hcount, hlength]
        exact Nat.le_refl 1
      · rw [Row.heldCount, hs.trans hkind, hcount, hlength]
        exact Nat.le_refl 2
  | unowned base grows bare collection =>
    have hkind : item.kind ≠ .dataUnit := by
      rcases collection with hkind | hkind <;> rw [hkind] <;> decide
    exact h.take_bare hkind grows (named_named _ _ base) bare
  | elements grows nonempty nonzero _ =>
    refine h.take_range Kind.noConfusion grows (named_named _ _ _)
      (fun s hkind _ hcount => Or.inl ⟨nonempty, rfl, ?_⟩) fun s hkind hcount => Or.inr ⟨rfl, ?_⟩
    · rw [Row.ownedCount, show s.kind = .array from hkind, hcount]
    · rw [Row.heldCount, show s.kind = .array from hkind, hcount]
      exact Nat.le_of_eq (Nat.max_eq_left (Nat.one_le_iff_ne_zero.mpr nonzero))
  | entries grows nonempty nonzero width _ _ =>
    refine h.take_range Kind.noConfusion grows (named_named _ _ _)
      (fun s hkind _ hcount => Or.inl ⟨nonempty, rfl, ?_⟩) fun s hkind hcount => Or.inr ⟨rfl, ?_⟩
    · rw [Row.ownedCount, show s.kind = .dictionary from hkind, hcount, width]
    · rw [Row.heldCount, show s.kind = .dictionary from hkind, hcount, width]
      exact Nat.le_of_eq (congrArg (2 * ·) (Nat.max_eq_left (Nat.one_le_iff_ne_zero.mpr nonzero)))
  | met known => exact addRoot_met h known
  | root unknown grows kind value => exact addRoot_new h unknown grows kind value

/-! ### Whole graphs -/

theorem sound_round (h : p.Sound top p.deferred) :
    ({ p with deferred := [] } : Progress).Sound top p.deferred :=
  ⟨h.wellFormed, h.ordered, h.reserved, h.complete, h.waits, h.once, h.reached, h.met, h.known⟩

/-- A walk begins with the row of its data unit. -/
theorem sound_start {s : Supply} {first : Row} {unit : DataUnit}
    (of : (Deferred.dataUnit 0 unit).IsOf first)
    (grows : Grows ⟨.blank s, [], []⟩ p [first] [.dataUnit 0 unit]) : p.Sound 0 p.deferred := by
  have hself : p.model.row 0 = .ok first := grows.row_new (k := 0) rfl
  have hrow : ∀ {i row}, p.model.row i = .ok row → i = 0 ∧ row = first := by
    intro i row hi
    rcases grows.row_cases hi with hold | ⟨k, hk, rfl⟩
    · exact absurd (Model.lt_size_of_row hold) (Nat.not_lt_zero i)
    · obtain rfl : k = 0 := Nat.lt_one_iff.mp (List.getElem?_eq_some_iff.mp hk).1
      exact ⟨rfl, (Option.some.inj hk).symm⟩
  -- The only row has no range yet, so almost everything holds for want of rows that own others.
  have hnone := Row.not_owns_of_start of.start
  have hstart : ∀ {i row root}, p.model.row i = .ok row → row.start ≠ some root := by
    intro i row root hi hroot
    rw [(hrow hi).2, of.start] at hroot
    cases hroot
  have hwellFormed : p.model.WellFormed 0 :=
    { bounded := Model.lt_size_of_row hself
      fits := fun i row hi => (hrow hi).2 ▸ (grows.fits first List.mem_cons_self).1
      texts := grows.texts fun _ ht => absurd ht List.not_mem_nil
      inside := fun i row hi j howns => absurd ((hrow hi).2 ▸ howns) (hnone j)
      apart := Model.pairwise_apart fun i j _ _ hi hj hne =>
        absurd ((hrow hi).1.trans (hrow hj).1.symm) hne
      notItself := fun i row hi _ howns => hnone i ((hrow hi).2 ▸ howns)
      notTop := fun i row hi _ howns => hnone 0 ((hrow hi).2 ▸ howns)
      roots := fun i row root hi _ hroot => absurd hroot (hstart hi)
      shared := fun s root root' ⟨i, row, hi, _, hroot⟩ _ => absurd hroot (hstart hi) }
  have hordered : p.model.Ordered :=
    { inside := fun i row j hi _ howns => absurd ((hrow hi).2 ▸ howns) (hnone j)
      below := fun i row j hi _ howns => absurd ((hrow hi).2 ▸ howns) (hnone j)
      nested := fun i row j _ _ _ hi _ howns => absurd ((hrow hi).2 ▸ howns) (hnone j) }
  rw [grows.deferred]
  have hreserved : p.model.Reserved := fun i row j hi hholds =>
    absurd hholds (Row.not_holds_of_start ((hrow hi).2 ▸ of.start) j)
  refine ⟨hwellFormed, hordered, hreserved, ?_, ?_, List.nodup_singleton _, ?_, ?_, ?_⟩
  · rintro i ⟨row, hi, hkind, -⟩
    rw [(hrow hi).2, of.kind] at hkind
    cases hkind
  · intro item hitem
    rw [List.mem_singleton.mp hitem]
    exact ⟨first, hself, of⟩
  · intro item hitem _
    rw [List.mem_singleton.mp hitem]
    exact .top
  · intro s root hs
    rw [grows.units] at hs
    cases hs
  · intro i row s root hi _ hroot
    exact absurd hroot (hstart hi)

/-- A walk is sound in the end. -/
theorem walk_sound {s : Supply} {unit : DataUnit} {result : Nat × Model}
    (h : r.walk (.blank s) unit = .ok result) :
    ∃ p : Progress, p.model = result.2 ∧ p.Sound result.1 p.deferred := by
  obtain ⟨first, rounds, p, p', hof, hgrows, hrounds, rfl⟩ := walk_rounds h
  refine ⟨p', rfl, ?_⟩
  exact addRounds_keeps (P := fun waiting p => p.Sound 0 waiting)
    (fun _ _ _ _ => advance_continues) (fun _ => sound_round) (sound_start hof hgrows) hrounds

/-- A walk gives a whole model: all objects belong to the data unit that it began with. -/
theorem walk_whole {s : Supply} {unit : DataUnit} {result : Nat × Model}
    (h : r.walk (.blank s) unit = .ok result) :
    result.2.Whole result.1 := by
  obtain ⟨p, hp, hsound⟩ := walk_sound h
  exact hp ▸ ⟨hsound.wellFormed, hsound.complete⟩

/-- A walk gives a model whose collections hold rows that no object owns. -/
theorem walk_reserved {s : Supply} {unit : DataUnit} {result : Nat × Model}
    (h : r.walk (.blank s) unit = .ok result) :
    result.2.Reserved := by
  obtain ⟨p, hp, hsound⟩ := walk_sound h
  exact hp ▸ hsound.reserved

/-- A walk gives a model whose rows stand before what they own. -/
theorem walk_ordered {s : Supply} {unit : DataUnit} {result : Nat × Model}
    (h : r.walk (.blank s) unit = .ok result) :
    result.2.Ordered := by
  obtain ⟨p, hp, hsound⟩ := walk_sound h
  exact hp ▸ hsound.ordered

end ObjectPack.Walk.Rules
