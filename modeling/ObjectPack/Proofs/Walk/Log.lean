import ObjectPack.Proofs.Walk.Reorder

/-!
# The log of a walk

While a graph is walked, a log is kept of the values whose turns have come (`Walk.Logged`).  Whatever the turn of
a value has put off is in the log in the end, and so is the root object of every data unit.  So a walk in another
order, which takes up nothing but what is in the log of the first one, succeeds as well, and pools no other texts
(`Walk.Rules.walk_reordered`).  There is one proviso: data units that share a root because their signatures have
one digest have to be equal, since which of them gets its root into the model depends on the order.
-/

namespace ObjectPack.Walk

open Outcome Progress

variable {r : Rules} {p p' : Progress} {item : Deferred} {log waiting later : List Deferred} {whole : Value}
  {unit : DataUnit} {order : MemberOrder}

/-- Whether what is in a log has had its turn: what these turns have put off is in the log or waits, and so are
the root objects of all data units that have been met. -/
structure Logged (r : Rules) (whole : Value) (log waiting : List Deferred) (p : Progress) : Prop where
  turned : ∀ item ∈ log, ∃ q q', r.addParts q item = .ok q' ∧ q'.deferred ⊆ log ++ waiting ∧
    ∀ text, q'.model.Pools text → p.model.Pools text
  waits : p.deferred ⊆ log ++ waiting
  met : ∀ i unit, .dataUnit i unit ∈ log → ∃ root, p.units.lookup (.ofText unit.signature) = some root
  known : ∀ s root, p.units.lookup s = some root → ∃ i unit, .dataUnit i unit ∈ log ∧
    Digest.ofText unit.signature = s ∧ .object root unit.root ∈ log ++ waiting
  inside : ∀ item ∈ log ++ waiting, item.In whole
  confined : p.Confined whole

namespace Rules

/-- Only data units are met. -/
theorem addParts_units (kind : item.kind ≠ .dataUnit) (h : r.addParts p item = .ok p') : p'.units = p.units := by
  cases addParts_advance h with
  | fields grows | declared grows _ _ => exact grows.units
  | unowned _ grows _ _ | elements grows _ _ _ | entries grows _ _ _ _ _ =>
    exact (named_others _).2.trans grows.units
  | met _ | root _ _ _ _ => exact absurd rfl kind

/-- Data units that have been met are met still, and a data unit has been met when its turn has come. -/
theorem addRoot_units (p : Progress) (i : Nat) (unit : DataUnit) :
    (∀ s, (p.units.lookup s).isSome → ((addRoot p i unit).units.lookup s).isSome) ∧
      ((addRoot p i unit).units.lookup (.ofText unit.signature)).isSome ∧
      ∀ s root, (addRoot p i unit).units.lookup s = some root → p.units.lookup s = some root ∨
        s = .ofText unit.signature ∧ .object root unit.root ∈ (addRoot p i unit).deferred := by
  unfold addRoot
  dsimp only
  cases hlookup : p.units.lookup (.ofText unit.signature) with
  | some root => exact ⟨fun _ => id, by rw [show (p.setRange i root 1).units = p.units from rfl, hlookup]; rfl,
      fun _ _ => Or.inl⟩
  | none =>
    refine ⟨fun s hs => ?_, ?_, fun s root hs => ?_⟩
    · show (List.lookup s ((Digest.ofText unit.signature, _) :: p.units)).isSome
      rw [lookup_met_cons]
      split
      · rfl
      · exact hs
    · show (List.lookup _ ((Digest.ofText unit.signature, _) :: p.units)).isSome
      rw [List.lookup_cons_self]
      rfl
    · rcases eq_or_lookup_of_met_cons hs with ⟨heq, rfl⟩ | hold
      · exact Or.inr ⟨heq, List.mem_append_right _ List.mem_cons_self⟩
      · exact Or.inl hold

end Rules

/-! ### Rounds -/

/-- When the turn of a value has come, the value is in the log. -/
theorem Logged.turn (h : Logged r whole log (item :: waiting) p) (step : r.addParts p item = .ok p')
    (deferred : p'.deferred = p.deferred ++ later) : Logged r whole (item :: log) (waiting ++ later) p' := by
  have hseen : log ++ item :: waiting ⊆ item :: log ++ (waiting ++ later) := by
    intro other hother
    simp only [List.mem_append, List.mem_cons] at hother ⊢
    tauto
  have hlater : p'.deferred ⊆ item :: log ++ (waiting ++ later) := by
    intro other hother
    rw [deferred] at hother
    rcases List.mem_append.mp hother with hother | hother
    · exact hseen (h.waits hother)
    · exact List.mem_append_right _ (List.mem_append_right _ hother)
  have hleads := Rules.addParts_leads step
  have hitem : item.In whole := h.inside item (List.mem_append_right _ List.mem_cons_self)
  have hconfined := Rules.addParts_confined h.confined hitem step
  exact
    { turned := by
        intro other hother
        rcases List.mem_cons.mp hother with rfl | hother
        · exact ⟨p, p', step, hlater, fun _ => id⟩
        · obtain ⟨q, q', hturn, hdeferred, htexts⟩ := h.turned other hother
          exact ⟨q, q', hturn, List.Subset.trans hdeferred hseen, fun text htext => hleads.texts text (htexts text htext)⟩
      waits := hlater
      met := by
        intro i unit hunit
        by_cases hkind : item.kind = .dataUnit
        · cases item with
          | dataUnit row first =>
            cases step
            obtain ⟨hkeeps, hnew, -⟩ := Rules.addRoot_units p row first
            rcases List.mem_cons.mp hunit with heq | hunit
            · cases heq
              exact Option.isSome_iff_exists.mp hnew
            · exact Option.isSome_iff_exists.mp (hkeeps _ (Option.isSome_iff_exists.mpr (h.met i unit hunit)))
          | _ => cases hkind
        · rw [Rules.addParts_units hkind step]
          rcases List.mem_cons.mp hunit with rfl | hunit
          · exact absurd rfl hkind
          · exact h.met i unit hunit
      known := by
        intro s root hs
        have hold : p.units.lookup s = some root → ∃ i unit, .dataUnit i unit ∈ item :: log ∧
            Digest.ofText unit.signature = s ∧ .object root unit.root ∈ item :: log ++ (waiting ++ later) := by
          intro hs
          obtain ⟨i, unit, hunit, hsignature, hroot⟩ := h.known s root hs
          exact ⟨i, unit, List.mem_cons_of_mem _ hunit, hsignature, hseen hroot⟩
        by_cases hkind : item.kind = .dataUnit
        · cases item with
          | dataUnit row first =>
            cases step
            rcases (Rules.addRoot_units p row first).2.2 s root hs with hs | ⟨rfl, hroot⟩
            · exact hold hs
            · exact ⟨row, first, List.mem_cons_self, rfl, hlater hroot⟩
          | _ => cases hkind
        · rw [Rules.addParts_units hkind step] at hs
          exact hold hs
      inside := by
        intro other hother
        have hnew : other ∈ later → other.In whole := fun hother =>
          hconfined.deferred other (deferred ▸ List.mem_append_right _ hother)
        simp only [List.mem_append, List.mem_cons] at hother
        rcases hother with (rfl | hother) | hother | hother
        · exact hitem
        · exact h.inside other (List.mem_append_left _ hother)
        · exact h.inside other (List.mem_append_right _ (List.mem_cons_of_mem _ hother))
        · exact hnew hother
      confined := hconfined }

/-- What is in the log or waits is in the log when nothing waits. -/
theorem Logged.foldlM {items : List Deferred} (h : Logged r whole log (items ++ p.deferred) p)
    (step : items.foldlM r.addParts p = .ok p') : ∃ log', log ++ items ⊆ log' ∧
      Logged r whole log' p'.deferred p' := by
  induction items generalizing p log with
  | nil =>
    cases step
    exact ⟨log, by rw [List.append_nil]; exact List.Subset.refl log, h⟩
  | cons item items ih =>
    rw [List.foldlM_cons, bind_eq_ok] at step
    obtain ⟨p₁, hfirst, hrest⟩ := step
    obtain ⟨later, hdeferred⟩ := (Rules.addParts_advance hfirst).deferred
    have hturn : Logged r whole (item :: log) (items ++ p.deferred ++ later) p₁ := h.turn hfirst hdeferred
    rw [List.append_assoc, ← hdeferred] at hturn
    obtain ⟨log', hlog, hlogged⟩ := ih hturn hrest
    refine ⟨log', fun other hother => hlog ?_, hlogged⟩
    simp only [List.mem_append, List.mem_cons] at hother ⊢
    tauto

theorem Logged.addRounds {rounds : Nat} (h : Logged r whole log p.deferred p)
    (step : r.addRounds rounds p = .ok p') : ∃ log', log ⊆ log' ∧ p.deferred ⊆ log' ++ p'.deferred ∧
      Logged r whole log' p'.deferred p' := by
  induction rounds generalizing p log with
  | zero =>
    cases step
    exact ⟨log, List.Subset.refl log, List.subset_append_right _ _, h⟩
  | succ rounds ih =>
    unfold Rules.addRounds at step
    split at step
    · cases step
      exact ⟨log, List.Subset.refl log, List.subset_append_right _ _, h⟩
    · obtain ⟨p₁, hround, hrest⟩ := bind_eq_ok.mp step
      have hstart : Logged r whole log (p.deferred ++ []) { p with deferred := [] } := by
        rw [List.append_nil]
        exact ⟨h.turned, List.nil_subset _, h.met, h.known, h.inside,
          fun _ hitem => absurd hitem List.not_mem_nil, h.confined.texts⟩
      obtain ⟨log₁, hlog₁, hlogged⟩ := hstart.foldlM hround
      obtain ⟨log', hlog', -, hdone⟩ := ih hlogged hrest
      refine ⟨log', List.Subset.trans (List.Subset.trans (List.subset_append_left _ _) hlog₁) hlog', ?_, hdone⟩
      exact List.subset_append_of_subset_left _
        (List.Subset.trans (List.Subset.trans (List.subset_append_right _ _) hlog₁) hlog')

/-! ### Walks in another order -/

namespace Rules

/-- A walk leaves a complete log, which has the data unit that it begins with. -/
theorem walk_logged {row : Nat} {m : Model} (h : r.walk .empty unit = .ok (row, m)) : ∃ log p,
    row = 0 ∧ p.model = m ∧ .dataUnit 0 unit ∈ log ∧ Logged r (.dataUnit unit) log [] p := by
  obtain ⟨p, new, rfl, rfl, hrounds, hnone, -, -⟩ := walk_labelled (fun _ => True) trivial (fun _ _ _ _ => trivial) h
  have hstart : Logged r (.dataUnit unit) [] (begun unit).deferred (begun unit) :=
    { turned := fun _ hitem => absurd hitem List.not_mem_nil
      waits := List.Subset.refl _
      met := fun _ _ hunit => absurd hunit List.not_mem_nil
      known := fun _ _ hs => by cases hs
      inside := fun item hitem => by
        obtain rfl : item = .dataUnit 0 unit := List.mem_singleton.mp hitem
        exact Value.In.self
      confined := by
        have hempty : Confined (.dataUnit unit) ⟨.empty, [], []⟩ :=
          ⟨fun _ hitem => absurd hitem List.not_mem_nil, fun _ ⟨_, ht, _⟩ => absurd ht List.not_mem_nil⟩
        exact hempty.addDeferred rfl fun _ => Value.In.self }
  obtain ⟨log, -, hlog, hlogged⟩ := hstart.addRounds hrounds
  rw [hnone, List.append_nil] at hlog
  exact ⟨log, p, rfl, rfl, hlog List.mem_cons_self, hnone ▸ hlogged⟩

/-- Whatever a walk pools is a text of the graph. -/
theorem walk_texts {row : Nat} {m : Model} (h : r.walk .empty unit = .ok (row, m)) {text : String}
    (pooled : m.Pools text) : (Value.text text).In (.dataUnit unit) := by
  obtain ⟨_, _, -, rfl, -, hlogged⟩ := walk_logged h
  exact hlogged.confined.texts text pooled

/-- Whether data units of a graph that have one digest are equal. -/
def DigestsTellUnits (whole : Value) : Prop :=
  ∀ u u', (Value.dataUnit u).In whole → (Value.dataUnit u').In whole →
    Digest.ofText u.signature = Digest.ofText u'.signature → u = u'

/-- A value that is alike to one in a complete log has its turn wherever it comes. -/
theorem exists_addParts {item' : Deferred} (logged : Logged r whole log [] p) (units : DigestsTellUnits whole)
    (mem : item ∈ log) (alike : item.Alike item') (q : Progress) : ∃ q', (r.inOrder order).addParts q item' = .ok q' ∧
      Echoes { p with deferred := log } q q' := by
  obtain ⟨p₀, p₁, hturn, hdeferred, htexts⟩ := logged.turned item mem
  have hleads : Leads p₁ { p with deferred := log } := ⟨List.append_nil log ▸ hdeferred, htexts⟩
  by_cases hkind : item.kind = .dataUnit
  · cases alike with
    | @dataUnit i j unit =>
      -- The root of the unit is in the log, whichever unit of its signature has come first.
      obtain ⟨root, hroot⟩ := logged.met _ _ mem
      obtain ⟨k, first, hfirst, hsignature, hobject⟩ := logged.known _ _ hroot
      have hin : ∀ {k u}, .dataUnit k u ∈ log → (Value.dataUnit u).In whole :=
        fun hmem => logged.inside _ (List.mem_append_left _ hmem)
      obtain rfl := units first unit (hin hfirst) (hin mem) hsignature
      rw [List.append_nil] at hobject
      refine ⟨addRoot q j first, rfl, ?_⟩
      unfold addRoot
      dsimp only
      split
      · exact ⟨fun _ => Or.inl, fun _ => Or.inl⟩
      · refine ⟨fun other hother => (List.mem_append.mp hother).imp_right fun hother => ?_, fun _ => Or.inl⟩
        rw [List.mem_singleton.mp hother]
        exact ⟨_, hobject, .object⟩
    | _ => cases hkind
  · obtain ⟨q', hq', hagain⟩ := addParts_again alike hkind r order p₀ q p₁ hturn
    exact ⟨q', hq', hagain.echoes.mono hleads⟩

/-- A walk that takes up nothing but what is in a complete log comes to its end. -/
theorem exists_addRounds (logged : Logged r whole log [] p) (units : DigestsTellUnits whole) (order : MemberOrder)
    (rounds : Nat) {q : Progress} (waits : ∀ item' ∈ q.deferred, ∃ item ∈ log, item.Alike item')
    (texts : ∀ text, q.model.Pools text → p.model.Pools text) : ∃ q', (r.inOrder order).addRounds rounds q = .ok q' ∧
      ∀ text, q'.model.Pools text → p.model.Pools text := by
  induction rounds generalizing q with
  | zero => exact ⟨q, rfl, texts⟩
  | succ rounds ih =>
    unfold addRounds
    split
    · exact ⟨q, rfl, texts⟩
    · obtain ⟨q₁, hround, hwaits, htexts⟩ := exists_foldlM (f := (r.inOrder order).addParts) (l := q.deferred)
        (b := { q with deferred := [] })
        (P := fun q => (∀ item' ∈ q.deferred, ∃ item ∈ log, item.Alike item') ∧
          ∀ text, q.model.Pools text → p.model.Pools text)
        (fun q₁ item' hitem' ⟨hwaits, htexts⟩ => by
          obtain ⟨item, hitem, halike⟩ := waits item' hitem'
          obtain ⟨q₂, hturn, hechoes⟩ := exists_addParts logged units hitem halike q₁
          refine ⟨q₂, hturn, fun other hother => ?_, fun text htext => ?_⟩
          · exact (hechoes.deferred other hother).elim (hwaits other) id
          · exact (hechoes.texts text htext).elim (htexts text) id)
        ⟨fun _ hitem => absurd hitem List.not_mem_nil, texts⟩
      obtain ⟨q', hrest, hdone⟩ := ih hwaits htexts
      exact ⟨q', bind_eq_ok.mpr ⟨q₁, hround, hrest⟩, hdone⟩

/-- A graph that can be walked can be walked in any order of fields, and no further texts are pooled. -/
theorem walk_reordered {row : Nat} {m : Model} (h : r.walk .empty unit = .ok (row, m))
    (units : DigestsTellUnits (.dataUnit unit)) (order : MemberOrder) : ∃ m',
      (r.inOrder order).walk .empty unit = .ok (row, m') ∧ ∀ text, m'.Pools text → m.Pools text := by
  obtain ⟨log, p, rfl, rfl, hunit, hlogged⟩ := walk_logged h
  obtain ⟨q', hrounds, htexts⟩ := exists_addRounds hlogged units order ((Value.dataUnit unit).depth + 1)
    (q := begun unit) (fun item hitem => by
      obtain rfl : item = .dataUnit 0 unit := List.mem_singleton.mp hitem
      exact ⟨_, hunit, .refl _⟩) (fun text ⟨t, ht, _⟩ => absurd ht List.not_mem_nil)
  refine ⟨q'.model, ?_, htexts⟩
  unfold walk
  simp only [bind_eq_ok, pure_eq_ok]
  exact ⟨q', hrounds, rfl⟩

end Rules

end ObjectPack.Walk
