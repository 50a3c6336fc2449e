import ObjectPack.Proofs.Walk.Parts

/-!
# Walks picture object graphs

A walk succeeds only with a model that pictures the whole graph (`Walk.Rules.walk_pictures`): every turn
keeps the picture that is being drawn, and what waits gets lighter with every round, so nothing waits when
the rounds are over.
-/

namespace ObjectPack.Walk

open Outcome Progress

variable {r : Rules} {p p' : Progress} {origins : List Origin} {item : Deferred}
  {waiting : List Deferred} {i : Nat}

/-! ### Data units -/

/-- A signature that has not been met has no row before the value whose turn is next: such a row would
have had its turn, and met the signature. -/
theorem Progress.Labelled.le_of_dataUnit {s : Digest} {j : Nat} {row : Row}
    (h : Labelled r p origins (item :: waiting)) (unknown : p.units.lookup s = none)
    (hrow : p.model.row j = .ok row) (value : row.value = .dataUnit s) : item.row ≤ j := by
  have hlt : j < origins.length := h.length ▸ Model.lt_size_of_row hrow
  rcases h.shows j row _ hrow (List.getElem?_eq_getElem hlt) with hshows | ⟨other, hother, rfl⟩
  · obtain ⟨root, hstart⟩ := hshows.start_of_dataUnit value
    have hknown := h.known j row s root hrow value hstart
    rw [unknown] at hknown
    cases hknown
  · have hascending := h.ascending
    rw [List.map_cons, List.pairwise_cons] at hascending
    rcases List.mem_cons.mp hother with rfl | hother
    · exact Nat.le_refl _
    · exact Nat.le_of_lt (hascending.1 _ (List.mem_map_of_mem hother))

namespace Rules

/-- A data unit that has been met shares the root that has got a row. -/
theorem addRoot_met_turned {unit : DataUnit} {root : Nat}
    (h : Labelled r p origins (.dataUnit i unit :: waiting))
    (known : p.units.lookup (.ofText unit.signature) = some root) :
    Turned r p (p.setRange i root 1) origins (.dataUnit i unit) waiting := by
  obtain ⟨o, row, ho, hrow, hfor⟩ := h.waits _ List.mem_cons_self
  obtain ⟨k, hintroduces⟩ := h.introduced _ root known
  obtain ⟨-, first, -, -, hsame, hroot⟩ := hintroduces.unit
  refine ⟨[], [], (List.append_nil _).symm, ?_, fun _ hitem => absurd hitem List.not_mem_nil,
    fun _ _ _ hpart => absurd hpart List.not_mem_nil⟩
  rw [List.append_nil, List.append_nil]
  cases hfor with
  | dataUnit treated value =>
    refine h.settle (Model.modify_changes hrow ({ · with start := some root, count := 1 })) rfl ?_
      (fun _ _ => id) (fun _ _ => Or.inl) ?_
    · intro o' ho'
      obtain rfl := Option.some.inj (ho.symm.trans ho')
      exact .dataUnit treated value hsame hroot
    · intro s root' hs hstart
      cases hs
      cases hstart
      exact known

/-- The first data unit of a signature gets a row for its root. -/
theorem addRoot_new_turned {p₁ : Progress} {unit : DataUnit} {row : Row} {later : List Deferred}
    (h : Labelled r p origins (.dataUnit i unit :: waiting))
    (unknown : p.units.lookup (.ofText unit.signature) = none)
    (gains : Gains r p p₁ (.root unit) row later) :
    Turned r p ({ p₁ with units := (.ofText unit.signature, p.size) :: p.units }.setRange i p.size 1)
      origins (.dataUnit i unit) waiting := by
  obtain ⟨o, row₀, ho, hrow₀, hfor⟩ := h.waits _ List.mem_cons_self
  have hlabels := h.add gains trivial
  have ho' : (origins ++ [.root unit])[i]? = some o := by
    change origins[i]? = some o at ho
    rw [List.getElem?_append_left (List.getElem?_eq_some_iff.mp ho).1]
    exact ho
  have hroot : (origins ++ [.root unit])[p.size]? = some (.root unit) := by
    rw [← h.length]
    exact List.getElem?_concat_length
  -- The row of the data unit becomes the first one of its signature, and the root object waits.
  cases hfor with
  | dataUnit treated value =>
    refine ⟨[.root unit], later, gains.deferred, ?_, fun other hother => ?_, ?_⟩
    · have hchanges := Model.modify_changes (gains.row_old hrow₀)
        ({ · with start := some p.size, count := 1 })
      refine Labelled.settle hlabels hchanges rfl ?_ ?_ ?_ ?_
      · intro o₁ ho₁
        obtain rfl := Option.some.inj (ho'.symm.trans ho₁)
        exact .dataUnit treated value rfl hroot
      · intro s root hs
        rw [gains.units] at hs
        exact lookup_met_cons_of_unknown unknown hs
      · intro s root hs
        rcases eq_or_lookup_of_met_cons hs with ⟨rfl, rfl⟩ | hold
        · refine Or.inr ⟨⟨_, hchanges.row_self (Model.lt_size_of_row (gains.row_old hrow₀)), rfl, rfl⟩,
            ⟨o, unit, ho', value, rfl, hroot⟩, fun j s hs hvalue => ?_⟩
          by_cases hj : j = i
          · exact Nat.le_of_eq hj.symm
          · exact hlabels.le_of_dataUnit (gains.units ▸ unknown) ((hchanges.row_of_ne hj).mp hs) hvalue
        · rw [gains.units]
          exact Or.inl hold
      · intro s root hs hstart
        cases hs
        cases hstart
        exact List.lookup_cons_self
    · rw [gains.later_row hother]
    · intro o₁ ho₁ part hpart
      obtain rfl := Option.some.inj (ho.symm.trans ho₁)
      rw [List.mem_singleton.mp hpart]
      exact .root value

/-- The turn of a data unit. -/
theorem addRoot_turned {unit : DataUnit} (h : Labelled r p origins (.dataUnit i unit :: waiting)) :
    Turned r p (addRoot p i unit) origins (.dataUnit i unit) waiting := by
  unfold addRoot
  dsimp only
  cases hlookup : p.units.lookup (.ofText unit.signature) with
  | some root => exact addRoot_met_turned h hlookup
  | none =>
    have hadded : GainsRow r p (.root unit)
        (p.addDeferred (·.addObject "" (Naming.typeName unit.root.typeName) true)
          (.object · unit.root)) :=
      addDeferred_gains (p.model.addTyped_adds _ _ _ _ _) rfl rfl (.object trivial rfl)
    obtain ⟨hindex, row, later, hgains⟩ := hadded
    exact addRoot_new_turned h hlookup hgains

/-! ### Rounds -/

/-- Every turn keeps the picture. -/
theorem addParts_turned (h : Labelled r p origins (item :: waiting))
    (step : r.addParts p item = .ok p') : Turned r p p' origins item waiting := by
  cases item with
  | object row object => exact addObjectFields_turned h step
  | sequence row label items element => exact addSequence_turned h step
  | dictionary row label entries key value => exact addEntries_turned h step
  | dataUnit row unit =>
    cases step
    exact addRoot_turned h

/-- Whether values that wait are nested less deeply than some bound. -/
def Lighter (origins : List Origin) (n : Nat) (items : List Deferred) : Prop :=
  ∀ item ∈ items, ∀ o, origins[item.row]? = some o → o.weight < n

theorem Lighter.append {items : List Deferred} {n : Nat} (h : Lighter origins n items)
    (labelled : Labelled r p origins waiting) (waits : ∀ item ∈ items, item ∈ waiting)
    (new : List Origin) : Lighter (origins ++ new) n items := by
  intro item hitem o ho
  obtain ⟨o', -, ho', -⟩ := labelled.waits item (waits item hitem)
  rw [List.getElem?_append_left (List.getElem?_eq_some_iff.mp ho').1] at ho
  exact h item hitem o ho

variable {within : Origin → Prop}

/-- Every round keeps the picture, and what waits afterwards is lighter than what has waited; what holds
of everything that the rows stand for holds of its parts. -/
theorem foldlM_labelled {items : List Deferred} {n : Nat}
    (closed : ∀ o part, within o → o.Part part → within part)
    (h : Labelled r p origins (items ++ p.deferred)) (all : ∀ o ∈ origins, within o)
    (now : Lighter origins (n + 1) items) (next : Lighter origins n p.deferred)
    (step : items.foldlM r.addParts p = .ok p') :
    ∃ new, Labelled r p' (origins ++ new) p'.deferred ∧ (∀ o ∈ origins ++ new, within o) ∧
      Lighter (origins ++ new) n p'.deferred := by
  induction items generalizing p origins with
  | nil =>
    cases step
    exact ⟨[], (List.append_nil origins).symm ▸ ⟨h, all, next⟩⟩
  | cons item items ih =>
    rw [List.foldlM_cons, bind_eq_ok] at step
    obtain ⟨p₁, hfirst, hrest⟩ := step
    obtain ⟨new, later, hdeferred, hlabels, hfresh, hparts⟩ := addParts_turned h hfirst
    have hall : ∀ o ∈ origins ++ new, within o := by
      obtain ⟨o', -, ho', -⟩ := h.waits item List.mem_cons_self
      intro o ho
      rcases List.mem_append.mp ho with ho | ho
      · exact all o ho
      · exact closed o' o (all o' (List.mem_of_getElem? ho')) (hparts o' ho' o ho)
    have hnow : Lighter (origins ++ new) (n + 1) items :=
      Lighter.append (fun other hother => now other (List.mem_cons_of_mem _ hother)) h
        (fun other hother => List.mem_cons_of_mem _ (List.mem_append_left _ hother)) new
    -- What waits now was put off by the parts of the item, which are lighter than the item.
    have hnext : Lighter (origins ++ new) n p₁.deferred := by
      intro other hother o ho
      rw [hdeferred] at hother
      rcases List.mem_append.mp hother with hother | hother
      · exact next.append h (fun other hother => List.mem_append_right _ hother) new other hother o ho
      · obtain ⟨o', -, ho', -⟩ := h.waits item List.mem_cons_self
        have hle := hfresh other hother
        rw [← h.length] at hle
        rw [List.getElem?_append_right hle] at ho
        have hlt := (hparts o' ho' o (List.mem_of_getElem? ho)).lighter
        have hlt' := now item List.mem_cons_self o' ho'
        omega
    obtain ⟨new', hlabels', hall', hlighter'⟩ :=
      ih (by rwa [hdeferred, ← List.append_assoc]) hall hnow hnext hrest
    rw [List.append_assoc] at hlabels' hall' hlighter'
    exact ⟨new ++ new', hlabels', hall', hlighter'⟩

/-- When there are more rounds than what waits is deep, nothing waits in the end. -/
theorem addRounds_labelled {rounds : Nat} (closed : ∀ o part, within o → o.Part part → within part)
    (h : Labelled r p origins p.deferred) (all : ∀ o ∈ origins, within o)
    (light : Lighter origins rounds p.deferred) (step : r.addRounds rounds p = .ok p') :
    p'.deferred = [] ∧ ∃ new, Labelled r p' (origins ++ new) [] ∧ ∀ o ∈ origins ++ new, within o := by
  -- What waits is lighter than the rounds that are left, so nothing waits when there are none:
  -- the parts of a value are lighter than the value.
  induction rounds generalizing p origins with
  | zero =>
    cases step
    cases hdeferred : p'.deferred with
    | nil =>
      refine ⟨rfl, [], ?_⟩
      rw [List.append_nil]
      exact ⟨hdeferred ▸ h, all⟩
    | cons item items =>
      rw [hdeferred] at h light
      obtain ⟨o, -, ho, -⟩ := h.waits item List.mem_cons_self
      exact absurd (light item List.mem_cons_self o ho) (Nat.not_lt_zero _)
  | succ rounds ih =>
    unfold addRounds at step
    split at step
    · rename_i hdeferred
      cases step
      refine ⟨hdeferred, [], ?_⟩
      rw [List.append_nil]
      exact ⟨hdeferred ▸ h, all⟩
    · rw [bind_eq_ok] at step
      obtain ⟨p₁, hround, hrest⟩ := step
      have hstart : Labelled r { p with deferred := [] } origins (p.deferred ++ []) := by
        rw [List.append_nil]
        exact ⟨h.length, h.shows, h.waits, h.ascending, h.admits, h.known, h.introduced⟩
      obtain ⟨new, hlabels, hall, hlighter⟩ := foldlM_labelled closed hstart all light
        (fun _ hitem => absurd hitem List.not_mem_nil) hround
      obtain ⟨hdone, new', hlabels', hall'⟩ := ih hlabels hall hlighter hrest
      rw [List.append_assoc] at hlabels' hall'
      exact ⟨hdone, new ++ new', hlabels', hall'⟩

end Rules

/-! ### Usable parts -/

theorem Plain.treated {name : String} {declared : Ty} {value : Option Value} {texts : TextPool} {row : Row}
    (h : Plain r texts (.part name declared value) row) :
    ∃ t, r.treatmentOf declared value = some t ∧ t ≠ .array ∧ t ≠ .dictionary := by
  cases h with
  | bool treated | noBool treated _ | scalar treated | noScalar treated _ | text treated _
  | noText treated _ | enum treated | noEnum treated _ _ | custom treated | noCustom treated
  | noObject treated _ | noUnit treated _ => exact ⟨_, treated, Treatment.noConfusion, Treatment.noConfusion⟩

variable {texts : TextPool} {row : Row} {o : Origin} {declared : Ty} {value : Option Value}

theorem mem_of_prefix_drop {o : Origin} {parts : List Origin} {start : Nat}
    (rows : parts <+: origins.drop start) (h : o ∈ parts) : o ∈ origins :=
  List.mem_of_mem_drop (rows.subset h)

theorem getElem?_of_prefix_drop {parts : List Origin} {start x : Nat} {o : Origin}
    (rows : parts <+: origins.drop start) (h : parts[x]? = some o) : origins[start + x]? = some o := by
  have hlt := (List.getElem?_eq_some_iff.mp h).1
  rw [← List.getElem?_drop, List.prefix_iff_getElem?.mp rows x hlt, ← List.getElem?_eq_getElem, h]

/-- Every row of a picture shows what it stands for. -/
theorem Pictures.shown {m : Model} {i : Nat} (h : Pictures r m origins) (hrow : m.row i = .ok row) :
    ∃ o, origins[i]? = some o ∧ Shows r r.usable m.texts origins o row := by
  have ho := List.getElem?_eq_getElem (h.length ▸ Model.lt_size_of_row hrow)
  exact ⟨_, ho, h.shows i row _ hrow ho⟩

/-- Where unsupported values are errors, a value is usable if its parts are. -/
theorem Shows.usable {name : String} (fail : r.unknown = .fail)
    (h : Shows r r.keeps texts origins (.part name declared value) row)
    (parts : ∀ name' declared' value', .part name' declared' value' ∈ origins →
      (Origin.part name' declared' value').weight < (Origin.part name declared value).weight →
      r.usable declared' value' = true) : r.usable declared value = true := by
  -- Nothing is left out, so the parts that have got rows are all parts.
  have hkeeps : ∀ declared value, r.keeps declared value = true := by
    intro declared value
    rw [Rules.keeps, fail]
  have hpart : ∀ {list : List Origin} {start : Nat} {declared' : Ty} {value' : Option Value},
      list <+: origins.drop start → .element declared' value' ∈ list →
      (Origin.element declared' value').weight < (Origin.part name declared value).weight →
      r.usable declared' value' = true :=
    fun rows hmem hlt => parts _ _ _ (mem_of_prefix_drop rows hmem) hlt
  cases h with
  | plain h =>
    obtain ⟨t, treated, harray, hdictionary⟩ := h.treated
    exact Rules.usable_of_treatmentOf treated harray hdictionary
  | object treated _ _ _ _ | dataUnit treated _ _ _ =>
    exact Rules.usable_of_treatmentOf treated Treatment.noConfusion Treatment.noConfusion
  | @sequence _ _ items kept _ _ treated used nonempty _ rows =>
    rw [List.filter_eq_self.mpr fun item _ => hkeeps _ _] at used
    subst used
    cases kept with
    | nil => exact absurd rfl nonempty
    | cons item rest =>
      exact Rules.usable_sequence treated
        (hpart rows (List.mem_map_of_mem List.mem_cons_self) (Origin.item_lighter List.mem_cons_self))
  | noElements treated empty declares rows =>
    rw [Rules.usable_empty_sequence treated empty declares]
    exact hpart rows List.mem_cons_self (Origin.declared_lighter (Origin.depth_element?_lt declares))
  | @dictionary _ _ key val entries kept _ _ treated types used nonempty _ rows =>
    rw [List.filter_eq_self.mpr fun entry _ => by rw [hkeeps, hkeeps]; rfl] at used
    subst used
    cases kept with
    | nil => exact absurd rfl nonempty
    | cons entry rest =>
      have hlighter : _ < (Origin.part name declared (some (.dictionary (entry :: rest)))).weight ∧
          _ < (Origin.part name declared (some (.dictionary (entry :: rest)))).weight :=
        Origin.entry_lighter List.mem_cons_self
      rw [types] at hlighter
      refine Rules.usable_dictionary treated ?_
      rw [Rules.usableEntry, types, Bool.and_eq_true]
      exact ⟨hpart rows (List.mem_append_left _ (List.mem_map_of_mem List.mem_cons_self)) hlighter.1,
        hpart rows (List.mem_append_right _ (List.mem_map_of_mem List.mem_cons_self)) hlighter.2⟩
  | noEntries treated empty declares rows =>
    obtain ⟨hkey, hval⟩ := Origin.depth_entry?_lt declares
    rw [Rules.usable_empty_dictionary treated empty declares, Bool.and_eq_true]
    exact ⟨hpart rows List.mem_cons_self (Origin.declared_lighter hkey),
      hpart rows (List.mem_cons_of_mem _ List.mem_cons_self) (Origin.declared_lighter hval)⟩

/-- Where every part is usable, the parts that get rows are the usable ones. -/
theorem Shows.of_usable (fail : r.unknown = .fail) (h : Shows r r.keeps texts origins o row)
    (parts : ∀ name declared value, .part name declared value ∈ origins →
      r.usable declared value = true) : Shows r r.usable texts origins o row := by
  -- Rules that fail leave nothing out, so the filters are trivial on both sides.
  have hkeeps : ∀ declared value, r.keeps declared value = true := by
    intro declared value
    rw [Rules.keeps, fail]
  cases h with
  | plain h => exact .plain h
  | @object _ _ ordered fields _ treated value order used rows =>
    refine .object treated value order ?_ rows
    rw [List.filter_eq_self.mpr fun field _ => hkeeps _ _] at used
    subst used
    refine (List.filter_eq_self.mpr fun field hfield => ?_).symm
    exact parts _ _ _ (mem_of_prefix_drop rows (List.mem_map_of_mem hfield))
  | @sequence _ _ items kept _ _ treated used nonempty bears rows =>
    refine .sequence treated ?_ nonempty bears rows
    rw [List.filter_eq_self.mpr fun item _ => hkeeps _ _] at used
    subst used
    refine (List.filter_eq_self.mpr fun item hitem => ?_).symm
    exact parts _ _ _ (mem_of_prefix_drop rows (List.mem_map_of_mem hitem))
  | noElements treated empty declares rows => exact .noElements treated empty declares rows
  | @dictionary _ _ key val entries kept _ _ treated types used nonempty bears rows =>
    refine .dictionary treated types ?_ nonempty bears rows
    rw [List.filter_eq_self.mpr fun entry _ => by rw [hkeeps, hkeeps]; rfl] at used
    subst used
    refine (List.filter_eq_self.mpr fun entry hentry => Bool.and_eq_true_iff.mpr ⟨?_, ?_⟩).symm
    · exact parts _ _ _
        (mem_of_prefix_drop rows (List.mem_append_left _ (List.mem_map_of_mem hentry)))
    · exact parts _ _ _
        (mem_of_prefix_drop rows (List.mem_append_right _ (List.mem_map_of_mem hentry)))
  | noEntries treated empty declares rows => exact .noEntries treated empty declares rows
  | dataUnit treated value same shared => exact .dataUnit treated value same shared

/-- When nothing waits, all parts are usable. -/
theorem Progress.Labelled.usable (h : Labelled r p origins []) {name : String}
    (hpart : .part name declared value ∈ origins) : r.usable declared value = true := by
  obtain ⟨htreated, hkeeps⟩ := h.admits _ hpart
  cases hunknown : r.unknown with
  | skip =>
    rw [Rules.keeps, hunknown] at hkeeps
    exact hkeeps
  | fail =>
    clear htreated hkeeps
    -- By induction on the depth of the value: its parts are nested less deeply.
    induction hn : (Origin.part name declared value).weight using Nat.strong_induction_on
      generalizing name declared value with
    | _ n ih =>
      obtain ⟨i, hi⟩ := List.getElem?_of_mem hpart
      have hlt : i < p.model.rows.toList.length := by
        have hlength := (List.getElem?_eq_some_iff.mp hi).1
        rw [h.length] at hlength
        rwa [Array.length_toList]
      rcases h.shows i _ _ (Model.row_eq_ok.mpr (List.getElem?_eq_getElem hlt)) hi with
        hshows | ⟨item, hitem, -⟩
      · refine hshows.usable hunknown fun name' declared' value' hpart' hlighter => ?_
        exact ih _ (hn ▸ hlighter) hpart' rfl
      · cases hitem

/-- When nothing waits, the rows picture the graph. -/
theorem Progress.Labelled.pictures (h : Labelled r p origins []) : Pictures r p.model origins where
  length := h.length
  shows i row o hrow ho := by
    rcases h.shows i row o hrow ho with hshows | ⟨item, hitem, -⟩
    · cases hunknown : r.unknown with
      | skip =>
        have hkeeps : r.keeps = r.usable := by
          funext declared value
          rw [Rules.keeps, hunknown]
        exact hkeeps ▸ hshows
      | fail => exact hshows.of_usable hunknown fun _ _ _ => h.usable
    · cases hitem
  usable _ _ _ := h.usable
  introduced j row s root hrow hvalue hstart := h.introduced s root (h.known j row s root hrow hvalue hstart)

/-! ### Whole graphs -/

namespace Rules

/-- The walk when it has begun: the data unit has got its row and waits. -/
def begun (unit : DataUnit) : Progress :=
  (Progress.addDeferred ⟨.empty, [], []⟩ (addDataUnitRow "" unit) (.dataUnit · unit)).2

/-- A walk goes on until nothing waits; then every row is labelled with what it stands for. -/
theorem walk_labelled {unit : DataUnit} {row : Nat} {m : Model} (within : Origin → Prop)
    (start : within (.unit unit)) (closed : ∀ o part, within o → o.Part part → within part)
    (h : r.walk .empty unit = .ok (row, m)) : ∃ p new, row = 0 ∧ p.model = m ∧
      r.addRounds ((Value.dataUnit unit).depth + 1) (begun unit) = .ok p ∧ p.deferred = [] ∧
      Labelled r p (.unit unit :: new) [] ∧ ∀ o ∈ .unit unit :: new, within o := by
  unfold walk at h
  simp only [bind_eq_ok, pure_eq_ok] at h
  obtain ⟨p, hrounds, hresult⟩ := h
  obtain ⟨rfl, rfl⟩ := Prod.mk.inj hresult
  -- Nothing is there before the walk; its first step adds the row of the data unit.
  have hstart : Labelled r ⟨.empty, [], []⟩ [] [] :=
    { length := rfl
      shows := fun i row o _ ho => by cases ho
      waits := fun item hitem => absurd hitem List.not_mem_nil
      ascending := List.Pairwise.nil
      admits := fun o ho => absurd ho List.not_mem_nil
      known := fun j row s root hrow => absurd (Model.lt_size_of_row hrow) (Nat.not_lt_zero j)
      introduced := fun s root hs => by cases hs }
  have hadded : GainsRow r ⟨.empty, [], []⟩ (.unit unit)
      (Progress.addDeferred ⟨.empty, [], []⟩ (addDataUnitRow "" unit) (.dataUnit · unit)) :=
    addDeferred_gains (Model.empty.addTyped_adds _ _ _ _ _) rfl rfl (.dataUnit trivial rfl)
  obtain ⟨hindex, first, later, hgains⟩ := hadded
  have hlabels := hstart.add hgains trivial
  have hlater : later = [.dataUnit 0 unit] := hgains.deferred.symm
  subst hlater
  have hlight : Lighter [.unit unit] ((Value.dataUnit unit).depth + 1) [.dataUnit 0 unit] := by
    intro item hitem o ho
    rw [List.mem_singleton.mp hitem] at ho
    cases ho
    exact Nat.lt_succ_self _
  have hall : ∀ o ∈ [.unit unit], within o := fun o ho => List.mem_singleton.mp ho ▸ start
  obtain ⟨hnone, new, hdone, hwithin⟩ := addRounds_labelled closed hlabels hall hlight hrounds
  exact ⟨p, new, rfl, rfl, hrounds, hnone, hdone, hwithin⟩

/-- A walk gives a picture of the object graph, and what holds of the data unit and of all parts of what it
holds of holds of everything that the rows stand for. -/
theorem walk_pictures_within {unit : DataUnit} {row : Nat} {m : Model} (within : Origin → Prop)
    (start : within (.unit unit)) (closed : ∀ o part, within o → o.Part part → within part)
    (h : r.walk .empty unit = .ok (row, m)) :
    ∃ origins, Pictures r m origins ∧ origins[row]? = some (.unit unit) ∧ ∀ o ∈ origins, within o := by
  obtain ⟨p, new, rfl, rfl, -, -, hdone, hwithin⟩ := walk_labelled within start closed h
  exact ⟨_, hdone.pictures, rfl, hwithin⟩

theorem exists_pictures {unit : DataUnit} {row : Nat} {m : Model} (h : r.walk .empty unit = .ok (row, m)) :
    ∃ origins, Pictures r m origins := by
  obtain ⟨origins, hpictures, -⟩ :=
    walk_pictures_within (fun _ => True) trivial (fun _ _ _ _ => trivial) h
  exact ⟨origins, hpictures⟩

/-- A walk gives a picture of the object graph: the row that it answers stands for the data unit, and every
row shows what it stands for with all of its usable parts in order. -/
theorem walk_pictures {unit : DataUnit} {row : Nat} {m : Model} (h : r.walk .empty unit = .ok (row, m)) :
    ∃ origins, Pictures r m origins ∧ origins[row]? = some (.unit unit) := by
  obtain ⟨origins, hpictures, hrow, -⟩ :=
    walk_pictures_within (fun _ => True) trivial (fun _ _ _ _ => trivial) h
  exact ⟨origins, hpictures, hrow⟩

/-- A data unit that leads back to its own signature, with parts that are not usable: a field, an item and
the key of an entry. -/
def strangeParts : DataUnit :=
  ⟨"strange", ⟨"Root", [⟨"m_next", .dataUnit "Root", .dataUnit ⟨"strange", ⟨"Other", []⟩⟩⟩,
    ⟨"m_handle", .foreign "Handle", .null⟩,
    ⟨"m_list", .list (.foreign "Any"), .sequence [.scalar (.u8 1), .null, .scalar (.u8 2)]⟩,
    ⟨"m_table", .dictionary (.foreign "Any") (.scalar .u8),
      .dictionary [(.null, .scalar (.u8 3)), (.text "a", .scalar (.u8 4))]⟩]⟩⟩

/-- Both data units own the root object of the first one; the unusable parts have no rows. -/
theorem walk_pictures_strangeParts : ∃ m origins,
    walk ⟨.standard, .skip, .declaration, "m_"⟩ .empty strangeParts = .ok (0, m) ∧
    m.rows.toList.map (fun r => (r.kind, r.name, r.start, r.count)) =
      [(.dataUnit, "", some 1, 1), (.object, "", some 2, 3), (.dataUnit, "next", some 1, 1),
        (.array, "list", some 5, 2), (.dictionary, "table", some 7, 1), (.uint8, "", none, 1),
        (.uint8, "", none, 1), (.string, "", some 0, 1), (.uint8, "", none, 1)] ∧
    Pictures ⟨.standard, .skip, .declaration, "m_"⟩ m origins ∧
    origins[0]? = some (.unit strangeParts) := by
  have hcheck : (walk ⟨.standard, .skip, .declaration, "m_"⟩ .empty strangeParts).toOption.any
      (fun x => x.1 = 0 && x.2.rows.toList.map (fun r => (r.kind, r.name, r.start, r.count)) =
        [(.dataUnit, "", some 1, 1), (.object, "", some 2, 3), (.dataUnit, "next", some 1, 1),
          (.array, "list", some 5, 2), (.dictionary, "table", some 7, 1), (.uint8, "", none, 1),
          (.uint8, "", none, 1), (.string, "", some 0, 1), (.uint8, "", none, 1)]) = true := by
    decide +kernel
  simp only [Option.any_eq_true, Bool.and_eq_true, decide_eq_true_eq, toOption_eq_some,
    Prod.exists] at hcheck
  obtain ⟨row, m, hwalk, rfl, hrows⟩ := hcheck
  obtain ⟨origins, hpictures, htop⟩ := walk_pictures hwalk
  exact ⟨m, origins, hwalk, hrows, hpictures, htop⟩

end Rules

end ObjectPack.Walk
