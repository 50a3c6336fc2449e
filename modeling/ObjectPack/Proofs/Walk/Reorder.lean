import ObjectPack.Proofs.Walk.Beside
import ObjectPack.Proofs.Walk.Faithful
import ObjectPack.Proofs.Walk.Homogeneous

/-!
# Walks in another order

The order of fields (`Walk.Rules.inOrder`) has no part in how a value is treated, and none in what the turn of a value
does, unless the value is an object: then the fields get their rows in another order, but what is put off and pooled
is the same.  So a turn that succeeds at one point of a walk succeeds at any point of a walk in another order
(`Walk.Rules.addParts_again`), and what it leaves to be done is alike to what the first one has left
(`Walk.Progress.Again`).  Data units are left to the walk as a whole: what their turn does depends on what has been
met before.
-/

namespace ObjectPack.Walk

open Outcome Progress

namespace Rules

variable {r : Rules} {order : MemberOrder} {label : String}

/-- The same rules, but for the order in which fields become rows. -/
def inOrder (r : Rules) (order : MemberOrder) : Rules := { r with order := order }

/-! ### What does not depend on the order -/

theorem supports_inOrder (r : Rules) (order : MemberOrder) : (r.inOrder order).supports = r.supports :=
  supports_congr rfl

@[simp] theorem usable_inOrder (r : Rules) (order : MemberOrder) : (r.inOrder order).usable = r.usable :=
  usable_congr rfl

@[simp] theorem treatmentOf_inOrder (r : Rules) (order : MemberOrder) :
    (r.inOrder order).treatmentOf = r.treatmentOf :=
  treatmentOf_congr rfl

variable {p : Progress}

theorem addRowFor_inOrder (r : Rules) (order : MemberOrder) : (r.inOrder order).addRowFor = r.addRowFor := by
  funext p name label declared value
  unfold addRowFor
  rw [supports_inOrder]
  rfl

theorem addAll_inOrder (all : List Candidate) : (r.inOrder order).addAll p all = r.addAll p all := by
  induction all generalizing p with
  | nil => rfl
  | cons c rest ih =>
    unfold addAll
    simp only [addRowFor_inOrder, ih]

theorem addElements_inOrder (declared : Ty) (elements : List (String × Value)) :
    (r.inOrder order).addElements declared p elements = r.addElements declared p elements := by
  rw [addElements_eq, addElements_eq, addAll_inOrder]

theorem addFields_inOrder (typeName : String) (fields : List Field) :
    (r.inOrder order).addFields typeName p fields = r.addFields typeName p fields := by
  rw [addFields_eq, addFields_eq, addAll_inOrder]
  rfl

theorem keepEntries_inOrder (key value : Ty) (entries : List (String × Value × Value)) :
    (r.inOrder order).keepEntries key value entries = r.keepEntries key value entries := by
  induction entries with
  | nil => rfl
  | cons entry rest ih =>
    have hsupports : ∀ label declared value, (r.inOrder order).supportsValue label declared value =
        r.supportsValue label declared value := supportsValue_congr rfl
    unfold keepEntries
    simp only [hsupports, ih]
    rfl

theorem addSequence_inOrder (p : Progress) (row : Nat) (label : String) (items : List Value)
    (element : Option Ty) : (r.inOrder order).addSequence p row label items element =
      r.addSequence p row label items element := by
  unfold addSequence
  simp only [addRowFor_inOrder, addElements_inOrder]

theorem addEntries_inOrder (p : Progress) (row : Nat) (label : String) (entries : List (Value × Value))
    (key value : Option Ty) : (r.inOrder order).addEntries p row label entries key value =
      r.addEntries p row label entries key value := by
  unfold addEntries
  simp only [addRowFor_inOrder, addElements_inOrder, keepEntries_inOrder]

end Rules

/-! ### Turns elsewhere -/

namespace Progress

/-- Whether a walk has gone on from one point to another: what waits still waits, and texts stay pooled. -/
structure Leads (p p' : Progress) : Prop where
  deferred : p.deferred ⊆ p'.deferred
  texts : ∀ text, p.model.Pools text → p'.model.Pools text

/-- Whether a walk puts off and pools nothing, from one point to another, but what another walk has at a point. -/
structure Echoes (p' q q' : Progress) : Prop where
  deferred : ∀ item ∈ q'.deferred, item ∈ q.deferred ∨ ∃ other ∈ p'.deferred, other.Alike item
  texts : ∀ text, q'.model.Pools text → q.model.Pools text ∨ p'.model.Pools text

variable {p p' p'' q q' q'' : Progress}

theorem Leads.refl (p : Progress) : Leads p p := ⟨List.Subset.refl _, fun _ => id⟩

theorem Leads.trans (h : Leads p p') (h' : Leads p' p'') : Leads p p'' :=
  ⟨List.Subset.trans h.deferred h'.deferred, fun text htext => h'.texts text (h.texts text htext)⟩

/-- Settling a row puts off and pools nothing. -/
theorem Leads.of_eq (h : Leads p p') (deferred : p''.deferred = p'.deferred)
    (texts : p''.model.texts = p'.model.texts) : Leads p p'' := by
  refine ⟨deferred ▸ h.deferred, fun text htext => ?_⟩
  rw [Model.Pools, texts]
  exact h.texts text htext

theorem Beside.leads (h : Beside p q p' q') : Leads p p' := by
  obtain ⟨later, -, hdeferred, -⟩ := h.deferred
  exact ⟨hdeferred ▸ List.subset_append_left _ _, h.more⟩

theorem Beside.echoes (h : Beside p q p' q') : Echoes p' q q' := by
  obtain ⟨later, later', hp, hq, halike⟩ := h.deferred
  refine ⟨fun item hitem => ?_, h.texts⟩
  rw [hq] at hitem
  refine (List.mem_append.mp hitem).imp_right fun hitem => ?_
  obtain ⟨k, hk, rfl⟩ := List.getElem_of_mem hitem
  have hk' : k < later.length := halike.length_eq ▸ hk
  exact ⟨later[k], hp ▸ List.mem_append_right _ (List.getElem_mem hk'), halike.get hk' hk⟩

theorem Echoes.refl (p' q : Progress) : Echoes p' q q := ⟨fun _ => Or.inl, fun _ => Or.inl⟩

theorem Echoes.trans (h : Echoes p' q q') (h' : Echoes p' q' q'') : Echoes p' q q'' where
  deferred item hitem := (h'.deferred item hitem).elim (h.deferred item) Or.inr
  texts text htext := (h'.texts text htext).elim (h.texts text) Or.inr

theorem Echoes.mono (h : Echoes p' q q') (leads : Leads p' p'') : Echoes p'' q q' where
  deferred item hitem := (h.deferred item hitem).imp_right fun ⟨other, hother, halike⟩ =>
    ⟨other, leads.deferred hother, halike⟩
  texts text htext := (h.texts text htext).imp_right (leads.texts text)

/-- Whether a turn has been had at one point and again at another one. -/
structure Again (p q p' q' : Progress) : Prop where
  leads : Leads p p'
  echoes : Echoes p' q q'

theorem Beside.again (h : Beside p q p' q') : Again p q p' q' := ⟨h.leads, h.echoes⟩

theorem Again.of_eq {p₁ q₁ : Progress} (h : Again p q p₁ q₁) (deferred : p'.deferred = p₁.deferred)
    (texts : p'.model.texts = p₁.model.texts) (deferred' : q'.deferred = q₁.deferred)
    (texts' : q'.model.texts = q₁.model.texts) : Again p q p' q' := by
  have hechoes := h.echoes.mono ((Leads.refl p₁).of_eq deferred texts)
  refine ⟨h.leads.of_eq deferred texts, deferred' ▸ hechoes.deferred, fun text htext => hechoes.texts text ?_⟩
  rw [Model.Pools, ← texts']
  exact htext

/-- Rows that have been added beside each other differ in their places at most. -/
theorem Beside.rowsFrom (h : Beside p q p' q') (k count : Nat) :
    (q'.rowsFrom (q.size + k) count).map unplaced = (p'.rowsFrom (p.size + k) count).map unplaced := by
  obtain ⟨new, new', hp, hq, hsame⟩ := h.rows
  have hrows : ∀ {p₀ p₁ : Progress} {new : List Row}, p₁.model.rows.toList = p₀.model.rows.toList ++ new →
      p₁.rowsFrom (p₀.size + k) count = (new.drop k).take count := by
    intro p₀ p₁ new hnew
    have hsize : p₀.model.rows.toList.length = p₀.size := Array.length_toList
    rw [rowsFrom_eq, hnew, ← List.drop_drop, List.drop_left' hsize]
  rw [hrows hp, hrows hq, List.map_take, List.map_drop, hsame, List.map_take, List.map_drop]

end Progress

namespace Rules

variable {r : Rules} {order : MemberOrder} {p p' q : Progress} {label : String} {row row' : Nat}

/-- A sequence whose turn succeeds somewhere succeeds wherever its turn comes. -/
theorem addSequence_again (r : Rules) (p q : Progress) (row row' : Nat) (label : String) (items : List Value)
    (element : Option Ty) : Follows (Again p q)
      (r.addSequence p row label items element) (r.addSequence q row' label items element) := by
  unfold addSequence
  dsimp only
  split
  · cases element with
    | none => exact .error _ _
    | some element =>
      refine (addRowFor_beside (.refl p q) r "" label element none).bind ?_
      rintro ⟨added, p₁⟩ ⟨added', q₁⟩ ⟨hsome, h⟩
      dsimp only at hsome ⊢
      rw [hsome]
      split
      · exact .ok (h.again.of_eq rfl rfl rfl rfl)
      · exact .ok h.again
  · refine (addElements_beside (.refl p q) r _ _).bind ?_
    rintro ⟨count, p₁⟩ ⟨_, q₁⟩ ⟨rfl, h⟩
    dsimp only
    have hcompared : checkHomogeneous label (q₁.rowsFrom q.size count) element =
        checkHomogeneous label (p₁.rowsFrom p.size count) element := by
      have hrows := h.rowsFrom 0 count
      rw [Nat.add_zero, Nat.add_zero] at hrows
      rw [← checkHomogeneous_unplaced, hrows, checkHomogeneous_unplaced]
    rw [hcompared]
    refine .bind_same fun base _ => ?_
    split <;> split <;> exact .ok (h.again.of_eq rfl rfl rfl rfl)

/-- A dictionary whose turn succeeds somewhere succeeds wherever its turn comes. -/
theorem addEntries_again (r : Rules) (p q : Progress) (row row' : Nat) (label : String)
    (entries : List (Value × Value)) (key val : Option Ty) : Follows (Again p q)
      (r.addEntries p row label entries key val) (r.addEntries q row' label entries key val) := by
  unfold addEntries
  dsimp only
  split
  · cases key with
    | none => exact .error _ _
    | some key =>
      cases val with
      | none => exact .error _ _
      | some val =>
        refine (addRowFor_beside (.refl p q) r "" label key none).bind ?_
        rintro ⟨k, p₁⟩ ⟨k', q₁⟩ ⟨hkey, h⟩
        refine (addRowFor_beside h r "" label val none).bind ?_
        rintro ⟨v, p₂⟩ ⟨v', q₂⟩ ⟨hval, h⟩
        dsimp only at hkey hval ⊢
        rw [hkey, hval]
        split
        · exact .ok (h.again.of_eq rfl rfl rfl rfl)
        · exact .ok h.again
  · refine .bind_same fun kept _ => ?_
    refine (addElements_beside (.refl p q) r _ _).bind ?_
    rintro ⟨_, p₁⟩ ⟨_, q₁⟩ ⟨rfl, h⟩
    refine (addElements_beside h r _ _).bind ?_
    rintro ⟨_, p₂⟩ ⟨_, q₂⟩ ⟨rfl, h⟩
    dsimp only
    -- Rows are compared by what they hold, not by where they stand.
    have hcompared : ∀ k count declared, checkHomogeneous label (q₂.rowsFrom (q.size + k) count) declared =
        checkHomogeneous label (p₂.rowsFrom (p.size + k) count) declared := by
      intro k count declared
      rw [← checkHomogeneous_unplaced, h.rowsFrom, checkHomogeneous_unplaced]
    have hkeys := hcompared 0 kept.length none
    rw [Nat.add_zero, Nat.add_zero] at hkeys
    rw [hkeys, hcompared]
    refine .bind_same fun _ _ => .bind_same fun base _ => ?_
    split <;> split <;> exact .ok (h.again.of_eq rfl rfl rfl rfl)

/-- Each of some fields that get their rows one after another gets its row anywhere. -/
theorem addFields_again {typeName : String} {fields : List Field} {result : Nat × Progress}
    (h : r.addFields typeName p fields = .ok result) : p.Leads result.2 ∧ ∀ field ∈ fields, ∀ q, ∃ added,
      r.addRowFor q (Naming.stripMember field.name r.memberLead)
        (typeName ++ "." ++ Naming.stripMember field.name r.memberLead) field.ty (some field.value) = .ok added ∧
      Echoes result.2 q added.2 := by
  induction fields generalizing p result with
  | nil =>
    cases h
    exact ⟨.refl p, fun _ hfield => absurd hfield List.not_mem_nil⟩
  | cons field rest ih =>
    unfold addFields at h
    simp only [bind_eq_ok, pure_eq_ok] at h
    obtain ⟨first, hfirst, others, hrest, rfl⟩ := h
    obtain ⟨hleads, hothers⟩ := ih hrest
    obtain ⟨_, -, -, hself⟩ := addRowFor_beside (.refl p p) r _ _ _ _ first hfirst
    refine ⟨hself.leads.trans hleads, fun other hother q => ?_⟩
    rcases List.mem_cons.mp hother with rfl | hother
    · obtain ⟨added, hadded, hbeside⟩ := addRowFor_beside (.refl p q) r _ _ _ _ first hfirst
      exact ⟨added, hadded, hbeside.2.echoes.mono hleads⟩
    · exact hothers other hother q

/-- Fields each of which gets its row anywhere get their rows one after another. -/
theorem exists_addFields {typeName : String} {fields : List Field} (each : ∀ field ∈ fields, ∀ q, ∃ added,
      r.addRowFor q (Naming.stripMember field.name r.memberLead)
        (typeName ++ "." ++ Naming.stripMember field.name r.memberLead) field.ty (some field.value) = .ok added ∧
      Echoes p' q added.2) (q : Progress) :
    ∃ result, r.addFields typeName q fields = .ok result ∧ Echoes p' q result.2 := by
  induction fields generalizing q with
  | nil => exact ⟨_, rfl, .refl p' q⟩
  | cons field rest ih =>
    obtain ⟨first, hfirst, hechoes⟩ := each field List.mem_cons_self q
    obtain ⟨others, hrest, hechoes'⟩ := ih (fun other hother => each other (List.mem_cons_of_mem field hother)) first.2
    refine ⟨((if first.1.isSome then 1 else 0) + others.1, others.2), ?_, hechoes.trans hechoes'⟩
    unfold addFields
    simp only [bind_eq_ok, pure_eq_ok]
    exact ⟨first, hfirst, others, hrest, rfl⟩

/-- An object whose turn succeeds somewhere succeeds wherever its turn comes, and in whatever order its fields
become rows. -/
theorem addObjectFields_again (r : Rules) (order : MemberOrder) (p q : Progress) (row row' : Nat) (object : Object) :
    Follows (Again p q) (r.addObjectFields p row object)
      ((r.inOrder order).addObjectFields q row' object) := by
  unfold addObjectFields
  intro p' h
  simp only [bind_eq_ok, pure_eq_ok] at h
  obtain ⟨⟨count, p₁⟩, hfields, rfl⟩ := h
  obtain ⟨hleads, heach⟩ := addFields_again hfields
  have hmem : ∀ field ∈ (r.inOrder order).orderFields object.fields, field ∈ r.orderFields object.fields :=
    fun field hfield => (r.orderFields_inOrder object.fields).mem_iff.mpr
      (((r.inOrder order).orderFields_inOrder object.fields).mem_iff.mp hfield)
  obtain ⟨⟨count', q₁⟩, hfields', hechoes⟩ := exists_addFields (fun field hfield => heach field (hmem field hfield)) q
  have hagain : Again p q p₁ q₁ := ⟨hleads, hechoes⟩
  refine ⟨q₁.setRange row' q.size count', ?_, hagain.of_eq rfl rfl rfl rfl⟩
  simp only [bind_eq_ok, pure_eq_ok, addFields_inOrder]
  exact ⟨_, hfields', rfl⟩

theorem addRoot_leads (p : Progress) (row : Nat) (unit : DataUnit) : p.Leads (addRoot p row unit) := by
  unfold addRoot
  dsimp only
  split
  · exact (Leads.refl p).of_eq rfl rfl
  · have hadded : p.Leads (p.addDeferred (·.addObject "" (Naming.typeName unit.root.typeName) true)
        (.object · unit.root)).2 := ⟨List.subset_append_left _ _, fun _ => id⟩
    exact hadded.of_eq rfl rfl

/-- A turn that succeeds somewhere succeeds wherever it comes, and in whatever order fields become rows; that of a
data unit depends on what has been met. -/
theorem addParts_again {item item' : Deferred} (alike : item.Alike item') (kind : item.kind ≠ .dataUnit) (r : Rules)
    (order : MemberOrder) (p q : Progress) : Follows (Again p q)
      (r.addParts p item) ((r.inOrder order).addParts q item') := by
  cases alike with
  | object => exact addObjectFields_again r order p q _ _ _
  | sequence =>
    show Follows _ _ ((r.inOrder order).addSequence _ _ _ _ _)
    rw [addSequence_inOrder]
    exact addSequence_again r p q _ _ _ _ _
  | dictionary =>
    show Follows _ _ ((r.inOrder order).addEntries _ _ _ _ _ _)
    rw [addEntries_inOrder]
    exact addEntries_again r p q _ _ _ _ _ _
  | dataUnit => exact absurd rfl kind

theorem addParts_leads {item : Deferred} (h : r.addParts p item = .ok p') : p.Leads p' := by
  by_cases hkind : item.kind = .dataUnit
  · cases item with
    | dataUnit row unit =>
      cases h
      exact addRoot_leads p row unit
    | _ => cases hkind
  · exact (addParts_again (.refl item) hkind r r.order p p p' h).choose_spec.2.leads

end Rules

end ObjectPack.Walk
