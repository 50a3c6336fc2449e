import ObjectPack.Proofs.Walk.Picture

/-!
# What a turn does

The turn of a value adds rows for its parts and gives its own row their range
(`Walk.Progress.Advance`).  Whatever every turn keeps is kept by a walk, however many rounds it makes
(`Walk.Rules.addRounds_keeps`).
-/

namespace ObjectPack.Walk

open Outcome Progress

variable {r : Rules} {p p₁ p' : Progress} {name label : String} {declared : Ty} {value : Option Value}
  {o : Origin} {row : Row} {later : List Deferred} {texts : TextPool}

/-! ### Single values -/

theorem Plain.fits (h : Plain r texts o row) : row.Fits ∧ (row.start = none ∨ row.kind = .string) := by
  cases h with
  | noScalar _ _ => exact ⟨congrArg Kind.ofFormat (Scalar.format_ofBits _ _).symm, Or.inl rfl⟩
  | text _ _ => exact ⟨rfl, Or.inr rfl⟩
  | noText _ _ => exact ⟨Or.inl rfl, Or.inl rfl⟩
  | noCustom _ => exact ⟨Or.inr (Or.inl rfl), Or.inl rfl⟩
  | noObject _ _ => exact ⟨Or.inr (Or.inr (Or.inl rfl)), Or.inl rfl⟩
  | noUnit _ _ => exact ⟨Or.inr (Or.inr (Or.inr rfl)), Or.inl rfl⟩
  | _ => exact ⟨rfl, Or.inl rfl⟩

theorem Deferred.IsFor.fits {item : Deferred} (h : item.IsFor r o row) : row.Fits := by
  cases h <;> rfl

/-- A value that is only declared has no row of an object. -/
theorem Plain.bare (h : Plain r texts (.part name declared none) row) :
    row.kind = .object → row.value ≠ .present := by
  cases h with
  | noScalar _ _ => exact fun _ => Payload.noConfusion
  | noObject _ _ => exact fun _ => Payload.noConfusion
  | _ => exact fun hkind => Kind.noConfusion hkind

theorem Deferred.IsFor.hollow {item : Deferred} (h : item.IsFor r (.part name declared none) row) :
    item.Hollow ∧ row.kind ≠ .object := by
  cases h with
  | object _ value => cases value
  | sequence _ is | dictionary _ is =>
    rcases is with hvalue | ⟨hempty, -⟩
    · cases hvalue
    · exact ⟨hempty, Kind.noConfusion⟩
  | dataUnit _ value => cases value

/-- What a row says of its value is enough to tell what the table gains. -/
theorem Progress.Gains.grows (h : Gains r p p' o row later)
    (texts : p.model.TextsKnown → p'.model.TextsKnown)
    (pool : ∀ first, p.model.TextsFrom first → p'.model.TextsFrom first) : p.Grows p' [row] later where
  table := h.rows
  deferred := h.deferred
  units := h.units
  texts := texts
  pool := pool
  fits s hs := by
    rw [List.mem_singleton.mp hs]
    rcases h.drawn with ⟨-, hplain⟩ | ⟨item, -, -, hfor⟩
    · exact hplain.fits
    · exact ⟨hfor.fits, Or.inl hfor.isOf.start⟩
  items item hitem := by
    rcases h.drawn with ⟨rfl, -⟩ | ⟨item', rfl, hrow, hfor⟩
    · cases hitem
    · rw [List.mem_singleton.mp hitem]
      exact ⟨0, row, rfl, hrow, hfor.isOf⟩
  once := by
    rcases h.drawn with ⟨rfl, -⟩ | ⟨item, rfl, -, -⟩
    · exact List.nodup_nil
    · exact List.nodup_singleton _

theorem Progress.Gains.bare (h : Gains r p p' (.part name declared none) row later) :
    Bare [row] later := by
  refine ⟨fun s hs => ?_, fun item hitem => ?_⟩
  · rw [List.mem_singleton.mp hs]
    rcases h.drawn with ⟨-, hplain⟩ | ⟨item, -, -, hfor⟩
    · exact hplain.bare
    · exact fun hkind => absurd hkind hfor.hollow.2
  · rcases h.drawn with ⟨rfl, -⟩ | ⟨item', rfl, -, hfor⟩
    · cases hitem
    · rw [List.mem_singleton.mp hitem]
      exact hfor.hollow.1

/-- Only a text adds to the pool, and it takes the next reference. -/
theorem addTreated_texts {treatment : Treatment} {result : Nat × Progress}
    (h : addTreated p name label declared value treatment = .ok result) :
    (p.model.TextsKnown → result.2.model.TextsKnown) ∧
      ∀ first, p.model.TextsFrom first → result.2.model.TextsFrom first := by
  have hstring : ∀ text, (p.model.TextsKnown → (p.addRow (·.addString name text)).2.model.TextsKnown) ∧
      ∀ first, p.model.TextsFrom first → (p.addRow (·.addString name text)).2.model.TextsFrom first := by
    intro text
    obtain ⟨_, _, hadds⟩ := p.model.addString_adds name text
    exact ⟨hadds.texts, hadds.pool⟩
  unfold addTreated at h
  cases treatment <;> dsimp only at h <;> repeat' split at h
  all_goals cases h
  all_goals first
    | exact hstring _
    | exact ⟨id, fun _ h => h.keep rfl rfl⟩

namespace Rules

/-- A value has one row, or none where it is not supported. -/
theorem addRowFor_grows {result : Option Nat × Progress}
    (h : r.addRowFor p name label declared value = .ok result) : ∃ rows later,
      p.Grows result.2 rows later ∧ rows.length = (if result.1.isSome then 1 else 0) ∧
      (value = none → Bare rows later) := by
  rcases addRowFor_cases h with ⟨-, rfl⟩ | ⟨-, treatment, added, htreated, hadd, rfl⟩
  · exact ⟨[], [], .refl p, rfl, fun _ => .nil⟩
  · obtain ⟨-, row, later, hgains⟩ := addTreated_gains htreated hadd
    obtain ⟨htexts, hpool⟩ := addTreated_texts hadd
    refine ⟨[row], later, hgains.grows htexts hpool, rfl, fun hnone => ?_⟩
    subst hnone
    exact hgains.bare

/-- A value that is supported has a row. -/
theorem isSome_of_addRowFor {v : Value} {result : Option Nat × Progress}
    (supported : r.supportsValue label declared v = .ok true)
    (h : r.addRowFor p name label declared (some v) = .ok result) : result.1.isSome := by
  rcases addRowFor_cases h with ⟨hkeeps, -⟩ | ⟨-, _, _, -, -, rfl⟩
  · have husable : r.usable declared (some v) = true := usable_of_supports supported
    exact absurd (hkeeps.symm.trans (keeps_of_usable husable)) Bool.false_ne_true
  · rfl

/-! ### Several values -/

/-- Values have as many rows as are counted. -/
theorem addAll_grows {all : List Candidate} {result : Nat × Progress} (h : r.addAll p all = .ok result) :
    ∃ rows later, p.Grows result.2 rows later ∧ rows.length = result.1 := by
  induction all generalizing p result with
  | nil =>
    cases h
    exact ⟨[], [], .refl p, rfl⟩
  | cons c rest ih =>
    unfold addAll at h
    simp only [bind_eq_ok, pure_eq_ok] at h
    obtain ⟨first, hfirst, others, hothers, rfl⟩ := h
    obtain ⟨rows, later, hgrows, hlength, -⟩ := addRowFor_grows hfirst
    obtain ⟨rows', later', hgrows', hlength'⟩ := ih hothers
    refine ⟨rows ++ rows', later ++ later', hgrows.trans hgrows', ?_⟩
    rw [List.length_append, hlength, hlength']

theorem addElements_count {items : List (String × Value)} {result : Nat × Progress}
    (supported : ∀ item ∈ items, r.supportsValue item.1 declared item.2 = .ok true)
    (h : r.addElements declared p items = .ok result) : result.1 = items.length := by
  induction items generalizing p result with
  | nil =>
    cases h
    rfl
  | cons item items ih =>
    unfold addElements at h
    simp only [bind_eq_ok, pure_eq_ok] at h
    obtain ⟨first, hfirst, rest, hrest, rfl⟩ := h
    have hrow := isSome_of_addRowFor (supported item List.mem_cons_self) hfirst
    have hcount := ih (fun item hitem => supported item (List.mem_cons_of_mem _ hitem)) hrest
    rw [if_pos hrow, hcount, List.length_cons, Nat.add_comm]

/-- Both halves of the entries that are kept are supported. -/
theorem supports_of_keepEntries {key value : Ty} {entries kept : List (String × Value × Value)}
    (h : r.keepEntries key value entries = .ok kept) : ∀ entry ∈ kept,
      r.supportsValue entry.1 key entry.2.1 = .ok true ∧
      r.supportsValue entry.1 value entry.2.2 = .ok true := by
  induction entries generalizing kept with
  | nil =>
    cases h
    exact fun entry hentry => absurd hentry List.not_mem_nil
  | cons entry entries ih =>
    rcases keepEntries_cons h with ⟨others, hkey, hval, hothers, rfl⟩ | ⟨-, hrest⟩
    · exact List.forall_mem_cons.mpr ⟨⟨hkey, hval⟩, ih hothers⟩
    · exact ih hrest

end Rules

/-! ### Turns -/

namespace Progress

/-- A walk whose row may have got a type name. -/
def named (p : Progress) (i : Nat) (base : Option String) : Progress :=
  match base with
  | some base => p.setTypeName i base
  | none => p

/-- What the turn of a value does: rows are added for its parts, and its own row gets their range. -/
inductive Advance (p : Progress) : Deferred → Progress → Prop
  | fields {p₁ : Progress} {rows : List Row} {later : List Deferred} {row : Nat} {object : Object}
      (grows : p.Grows p₁ rows later) :
    Advance p (.object row object) (p₁.setRange row p.size rows.length)
  /-- An empty collection holds the rows of what it declares, and owns none. -/
  | declared {p₁ : Progress} {rows : List Row} {later : List Deferred} {item : Deferred}
      (grows : p.Grows p₁ rows later) (bare : Bare rows later)
      (width : (item.kind = .array ∧ rows.length = 1) ∨ (item.kind = .dictionary ∧ rows.length = 2)) :
    Advance p item (p₁.setRange item.row p.size 0)
  /-- A collection gets no range where none of its elements has got a row. -/
  | unowned {p₁ : Progress} {rows : List Row} {later : List Deferred} {item : Deferred}
      (base : Option String) (grows : p.Grows p₁ rows later) (bare : Bare rows later)
      (collection : item.kind = .array ∨ item.kind = .dictionary) :
    Advance p item (p₁.named item.row base)
  | elements {p₁ : Progress} {rows : List Row} {later : List Deferred} {row : Nat} {label : String}
      {items : List Value} {element : Option Ty} {base : Option String}
      (grows : p.Grows p₁ rows later) (nonempty : items ≠ []) (nonzero : rows.length ≠ 0)
      (compared : checkHomogeneous label (p₁.rowsFrom p.size rows.length) element = .ok base) :
    Advance p (.sequence row label items element)
      ((p₁.named row base).setRange row p.size rows.length)
  | entries {p₁ : Progress} {rows : List Row} {later : List Deferred} {row count : Nat} {label : String}
      {entries : List (Value × Value)} {key value : Option Ty} {base : Option String}
      (grows : p.Grows p₁ rows later) (nonempty : entries ≠ []) (nonzero : count ≠ 0)
      (width : rows.length = 2 * count)
      (keys : checkHomogeneous label (p₁.rowsFrom p.size count) none = .ok none)
      (values : checkHomogeneous label (p₁.rowsFrom (p.size + count) count) value = .ok base) :
    Advance p (.dictionary row label entries key value)
      ((p₁.named row base).setRange row p.size count)
  | met {row root : Nat} {unit : DataUnit}
      (known : p.units.lookup (.ofText unit.signature) = some root) :
    Advance p (.dataUnit row unit) (p.setRange row root 1)
  | root {p₁ : Progress} {object : Row} {later : List Deferred} {row : Nat} {unit : DataUnit}
      (unknown : p.units.lookup (.ofText unit.signature) = none)
      (grows : p.Grows p₁ [object] later) (kind : object.kind = .object)
      (value : object.value = .present) :
    Advance p (.dataUnit row unit)
      ({ p₁ with units := (.ofText unit.signature, p.size) :: p.units }.setRange row p.size 1)

variable {item : Deferred}

theorem named_others {i : Nat} (base : Option String) :
    (p.named i base).deferred = p.deferred ∧ (p.named i base).units = p.units := by
  cases base <;> exact ⟨rfl, rfl⟩

/-- Values that are put off wait behind those that do already. -/
theorem Advance.deferred (h : p.Advance item p') : ∃ later, p'.deferred = p.deferred ++ later := by
  cases h with
  | fields grows | declared grows _ _ | root _ grows _ _ => exact ⟨_, grows.deferred⟩
  | unowned _ grows _ _ | elements grows _ _ _ | entries grows _ _ _ _ _ =>
    exact ⟨_, (named_others _).1.trans grows.deferred⟩
  | met _ => exact ⟨[], (List.append_nil _).symm⟩

end Progress

/-- Without a declared type there is no name of a class. -/
theorem eq_none_of_check {rows : List Row} {base : Option String}
    (h : checkHomogeneous label rows none = .ok base) : base = none := by
  cases rows with
  | nil => exact (Except.ok.inj h).symm
  | cons first rest =>
    unfold checkHomogeneous at h
    simp only [bind_eq_ok, pure_eq_ok] at h
    obtain ⟨differ, -, rfl⟩ := h
    exact ite_self none

namespace Rules

variable {i : Nat}

theorem addObjectFields_advance {object : Object} (step : r.addObjectFields p i object = .ok p') :
    p.Advance (.object i object) p' := by
  unfold addObjectFields at step
  simp only [bind_eq_ok, pure_eq_ok] at step
  obtain ⟨⟨count, p₁⟩, hfields, rfl⟩ := step
  obtain ⟨rows, later, hgrows, rfl⟩ := addAll_grows (addFields_eq _ _ ▸ hfields)
  exact .fields hgrows

theorem addSequence_advance {items : List Value} {element : Option Ty}
    (step : r.addSequence p i label items element = .ok p') :
    p.Advance (.sequence i label items element) p' := by
  unfold addSequence at step
  dsimp only at step
  split at step
  · split at step
    · exact absurd step throw_ne_ok
    · simp only [bind_eq_ok, pure_eq_ok] at step
      obtain ⟨⟨added, p₁⟩, hadd, rfl⟩ := step
      obtain ⟨rows, later, hgrows, hlength, hbare⟩ := addRowFor_grows hadd
      split
      · rename_i hadded
        refine .declared hgrows (hbare rfl) (Or.inl ⟨rfl, ?_⟩)
        rw [hlength, if_pos hadded]
      · exact .unowned none hgrows (hbare rfl) (Or.inl rfl)
  · rename_i hitems
    simp only [bind_eq_ok, pure_eq_ok] at step
    obtain ⟨⟨count, p₁⟩, hadd, base, hbase, rfl⟩ := step
    obtain ⟨rows, later, hgrows, rfl⟩ := addAll_grows (addElements_eq _ _ ▸ hadd)
    split
    · rename_i hzero
      obtain rfl := List.length_eq_zero_iff.mp hzero
      exact .unowned base hgrows hgrows.bare (Or.inl rfl)
    · rename_i hsome
      exact .elements hgrows (fun hnil => hitems (List.isEmpty_iff.mpr hnil)) hsome hbase

theorem addEntries_advance {entries : List (Value × Value)} {key val : Option Ty}
    (step : r.addEntries p i label entries key val = .ok p') :
    p.Advance (.dictionary i label entries key val) p' := by
  unfold addEntries at step
  dsimp only at step
  split at step
  · split at step
    · simp only [bind_eq_ok, pure_eq_ok] at step
      obtain ⟨⟨k, p₁⟩, hkey, ⟨v, p₂⟩, hval, rfl⟩ := step
      obtain ⟨rows, later, hgrows, hlength, hbare⟩ := addRowFor_grows hkey
      obtain ⟨rows', later', hgrows', hlength', hbare'⟩ := addRowFor_grows hval
      have hboth := (hbare rfl).append (hbare' rfl)
      split
      · rename_i hadded
        refine .declared (hgrows.trans hgrows') hboth (Or.inr ⟨rfl, ?_⟩)
        rw [List.length_append, hlength, hlength', if_pos hadded.1, if_pos hadded.2]
      · exact .unowned none (hgrows.trans hgrows') hboth (Or.inr rfl)
    · exact absurd step throw_ne_ok
  · rename_i hentries
    simp only [bind_eq_ok, pure_eq_ok] at step
    obtain ⟨kept, hkept, ⟨keys, p₁⟩, hkeys, ⟨values, p₂⟩, hvalues, keyBase, hcheck, base, hbase, rfl⟩ := step
    have hsupported := supports_of_keepEntries hkept
    obtain ⟨rows, later, hgrows, hlength⟩ := addAll_grows (addElements_eq _ _ ▸ hkeys)
    obtain ⟨rows', later', hgrows', hlength'⟩ := addAll_grows (addElements_eq _ _ ▸ hvalues)
    -- Keys and values are as many as the entries that are kept.
    have hcount := addElements_count (by
      intro item hitem
      obtain ⟨entry, hentry, rfl⟩ := List.mem_map.mp hitem
      exact (hsupported entry hentry).1) hkeys
    have hcount' := addElements_count (by
      intro item hitem
      obtain ⟨entry, hentry, rfl⟩ := List.mem_map.mp hitem
      exact (hsupported entry hentry).2) hvalues
    rw [List.length_map] at hcount hcount'
    have hwidth : (rows ++ rows').length = 2 * kept.length := by
      rw [List.length_append]
      omega
    obtain rfl := eq_none_of_check hcheck
    split
    · rename_i hzero
      have hnil : rows ++ rows' = [] := List.length_eq_zero_iff.mp (by omega)
      have hall := hgrows.trans hgrows'
      rw [hnil] at hall
      exact .unowned base hall hall.bare (Or.inr rfl)
    · rename_i hsome
      exact .entries (hgrows.trans hgrows') (fun hnil => hentries (List.isEmpty_iff.mpr hnil)) hsome hwidth
        hcheck hbase

theorem addRoot_advance (p : Progress) (i : Nat) (unit : DataUnit) :
    p.Advance (.dataUnit i unit) (addRoot p i unit) := by
  unfold addRoot
  dsimp only
  cases hlookup : p.units.lookup (.ofText unit.signature) with
  | some root => exact .met hlookup
  | none =>
    have hadds := p.model.addTyped_adds .object "" (Naming.typeName unit.root.typeName) .present 0
    obtain ⟨-, hgrows⟩ := addDeferred_grows p
      (·.addObject "" (Naming.typeName unit.root.typeName) true) (.object · unit.root) hadds rfl rfl
      ⟨rfl, rfl, rfl⟩
    exact .root hlookup hgrows rfl rfl

/-- All that a turn can do. -/
theorem addParts_advance {item : Deferred} (step : r.addParts p item = .ok p') : p.Advance item p' := by
  cases item with
  | object row object => exact addObjectFields_advance step
  | sequence row label items element => exact addSequence_advance step
  | dictionary row label entries key value => exact addEntries_advance step
  | dataUnit row unit =>
    cases step
    exact addRoot_advance p row unit

/-! ### Rounds -/

/-- What every turn keeps a round keeps; `P` also tells of the values that wait. -/
theorem foldlM_advances {P : List Deferred → Progress → Prop}
    (turn : ∀ item waiting p p', P (item :: waiting) p → p.Advance item p' →
      ∃ later, p'.deferred = p.deferred ++ later ∧ P (waiting ++ later) p')
    {items : List Deferred} (h : P (items ++ p.deferred) p)
    (step : items.foldlM r.addParts p = .ok p') : P p'.deferred p' := by
  induction items generalizing p with
  | nil =>
    cases step
    exact h
  | cons item items ih =>
    rw [List.foldlM_cons, bind_eq_ok] at step
    obtain ⟨p₁, hfirst, hrest⟩ := step
    obtain ⟨later, hdeferred, hnext⟩ := turn _ _ _ _ h (addParts_advance hfirst)
    refine ih ?_ hrest
    rw [hdeferred, ← List.append_assoc]
    exact hnext

/-- What every turn keeps a walk keeps, however many rounds it makes. -/
theorem addRounds_keeps {P : List Deferred → Progress → Prop} {rounds : Nat}
    (turn : ∀ item waiting p p', P (item :: waiting) p → p.Advance item p' →
      ∃ later, p'.deferred = p.deferred ++ later ∧ P (waiting ++ later) p')
    (round : ∀ p : Progress, P p.deferred p → P p.deferred { p with deferred := [] })
    (h : P p.deferred p) (step : r.addRounds rounds p = .ok p') : P p'.deferred p' := by
  induction rounds generalizing p with
  | zero =>
    cases step
    exact h
  | succ rounds ih =>
    unfold addRounds at step
    split at step
    · cases step
      exact h
    · rw [bind_eq_ok] at step
      obtain ⟨p₁, hround, hrest⟩ := step
      refine ih (foldlM_advances turn ?_ hround) hrest
      rw [List.append_nil]
      exact round p h

/-- A walk begins with the row of its data unit, which waits for its turn. -/
theorem walk_rounds {m : Model} {unit : DataUnit} {result : Nat × Model}
    (h : r.walk m unit = .ok result) : ∃ first rounds p p', (Deferred.dataUnit m.size unit).IsOf first ∧
      Grows ⟨m, [], []⟩ p [first] [.dataUnit m.size unit] ∧ r.addRounds rounds p = .ok p' ∧
      result = (m.size, p'.model) := by
  unfold walk at h
  simp only [bind_eq_ok, pure_eq_ok] at h
  obtain ⟨p', hrounds, rfl⟩ := h
  have hadds := m.addTyped_adds .dataUnit "" (Naming.typeName unit.root.typeName)
    (.dataUnit (.ofText unit.signature)) 0
  obtain ⟨-, hgrows⟩ := addDeferred_grows ⟨m, [], []⟩ (addDataUnitRow "" unit) (.dataUnit · unit)
    hadds rfl rfl ⟨rfl, rfl, rfl⟩
  exact ⟨_, _, _, p', ⟨rfl, rfl, rfl⟩, hgrows, hrounds, rfl⟩

end Rules

end ObjectPack.Walk
