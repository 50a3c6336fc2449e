import Mathlib.Data.Fintype.Card
import Mathlib.Logic.Relation
import ObjectPack.Proofs.Interface.Fit

/-!
# Definitions stand behind what they need

Definitions are set one after the other, and each one that is set is waited for no longer.  At any time those that are
set or ready are exactly those that need nothing but what is set, and the others wait for the rest
(`Waiting.Arranged`); a step keeps that (`Waiting.Arranged.release`), so a whole run does
(`Waiting.Arranged.arrange`).  Since there are finitely many names, one that is never set leads to a cycle, and one
that is set does not (`Waiting.Arranged.mem_left_iff`).  So definitions have an order iff none needs itself over
others, and otherwise exactly those that lie on a cycle or lead to one are named
(`Model.orderedDefinitions_sorts`).
-/

namespace ObjectPack

open Outcome Interface Relation

namespace Interface

variable {all w : Waiting} {done ready order names : List String} {name a b : String} {steps : Nat}

/-! ### What waits -/

/-- Whether a name waits for another one. -/
def Waiting.Needs (w : Waiting) (a b : String) : Prop := ∃ names, (a, names) ∈ w ∧ b ∈ names

/-- Waits no longer for some names. -/
def Waiting.without (w : Waiting) (done : List String) : Waiting :=
  w.map fun x => (x.1, x.2.filter (· ∉ done))

/-- The names that wait for nothing. -/
def Waiting.free (w : Waiting) : List String := (w.filter (·.2.isEmpty)).map (·.1)

/-- What waits for something. -/
def Waiting.bound (w : Waiting) : Waiting := w.filter (! ·.2.isEmpty)

theorem Waiting.release_eq (w : Waiting) (name : String) :
    w.release name = ((w.without [name]).free, (w.without [name]).bound) := by
  have hwithout : w.without [name] = w.map fun x => (x.1, x.2.filter (· ≠ name)) := by
    simp only [without, List.mem_singleton]
  unfold release free bound
  rw [hwithout]

theorem Waiting.without_cons (name : String) (names done : List String) (w : Waiting) :
    Waiting.without ((name, names) :: w) done = (name, names.filter (· ∉ done)) :: w.without done := rfl

theorem Waiting.free_cons (name : String) (names : List String) (w : Waiting) :
    Waiting.free ((name, names) :: w) = if names.isEmpty then name :: w.free else w.free := by
  cases names <;> rfl

theorem Waiting.bound_cons (name : String) (names : List String) (w : Waiting) :
    Waiting.bound ((name, names) :: w) = if names.isEmpty then w.bound else (name, names) :: w.bound := by
  cases names <;> rfl

@[simp] theorem Waiting.without_nil (w : Waiting) : w.without [] = w := by
  simp [without]

/-- Names can be set together or one after the other. -/
theorem Waiting.without_without (w : Waiting) (done names : List String) :
    (w.without done).without names = w.without (done ++ names) := by
  simp only [without, List.map_map]
  refine List.map_congr_left fun x _ => ?_
  simp only [Function.comp, List.filter_filter, List.mem_append, Prod.mk.injEq, true_and]
  refine List.filter_congr fun y _ => ?_
  simp only [not_or, Bool.decide_and, Bool.and_comm]

/-- What waits for nothing does not wait for less than that. -/
theorem Waiting.bound_without (w : Waiting) (names : List String) :
    (w.bound.without names).bound = (w.without names).bound := by
  induction w with
  | nil => rfl
  | cons x w ih =>
    rw [bound_cons, without_cons, bound_cons, ← ih]
    split
    · rename_i hempty
      rw [List.isEmpty_iff.mp hempty]
      rfl
    · rw [without_cons, bound_cons]

/-- What waits for nothing once names are set waited for nothing before, or it waits for nothing now. -/
theorem Waiting.free_without (w : Waiting) (names : List String) :
    (w.free ++ (w.bound.without names).free).Perm (w.without names).free := by
  induction w with
  | nil => exact .nil
  | cons x w ih =>
    rw [free_cons, bound_cons, without_cons, free_cons]
    split
    · rename_i hempty
      rw [List.isEmpty_iff.mp hempty]
      exact ih.cons x.1
    · rw [without_cons, free_cons]
      split
      · exact List.perm_middle.trans (ih.cons x.1)
      · exact ih

/-- A name waits for nothing once names are set iff it needs nothing else. -/
theorem Waiting.mem_free_without : a ∈ (w.without done).free ↔
    ∃ names, (a, names) ∈ w ∧ ∀ b ∈ names, b ∈ done := by
  simp [free, without, List.filter_eq_nil_iff]

/-- A name goes on waiting while something that it needs is not set. -/
theorem Waiting.mem_bound_without : a ∈ (w.without done).bound.map (·.1) ↔ ∃ b, w.Needs a b ∧ b ∉ done := by
  constructor
  · intro h
    obtain ⟨x, hx, rfl⟩ := List.mem_map.mp h
    obtain ⟨hx, hbound⟩ := List.mem_filter.mp hx
    obtain ⟨y, hy, rfl⟩ := List.mem_map.mp hx
    obtain ⟨b, hb, hset⟩ : ∃ b ∈ y.2, b ∉ done := by simpa using hbound
    exact ⟨b, ⟨y.2, hy, hb⟩, hset⟩
  · rintro ⟨b, ⟨names, hnames, hb⟩, hset⟩
    refine List.mem_map.mpr ⟨(a, names.filter (· ∉ done)), List.mem_filter.mpr
      ⟨List.mem_map.mpr ⟨(a, names), hnames, rfl⟩, ?_⟩, rfl⟩
    have hmem : b ∈ names.filter (· ∉ done) := List.mem_filter.mpr ⟨hb, decide_eq_true hset⟩
    rw [List.isEmpty_eq_false_iff.mpr (List.ne_nil_of_mem hmem), Bool.not_false]

/-! ### What is set -/

/-- Whether each name of a list stands behind all names that it needs. -/
def StandBehind (needs : String → String → Prop) (order : List String) : Prop :=
  ∀ front name rest, order = front ++ name :: rest → ∀ b, needs name b → b ∈ front

/-- A name may follow those that it needs. -/
theorem StandBehind.concat {needs : String → String → Prop} (h : StandBehind needs order)
    (behind : ∀ b, needs name b → b ∈ order) : StandBehind needs (order ++ [name]) := by
  intro front x rest hsplit b hb
  rcases List.eq_nil_or_concat rest with rfl | ⟨rest, last, rfl⟩
  · obtain ⟨rfl, hlast⟩ := List.append_inj' hsplit rfl
    cases hlast
    exact behind b hb
  · rw [List.concat_eq_append, ← List.cons_append, ← List.append_assoc] at hsplit
    obtain ⟨rfl, -⟩ := List.append_inj' hsplit rfl
    exact h front x rest rfl b hb

/-- What a name of such a list needs is in the list. -/
theorem StandBehind.mem {needs : String → String → Prop} (h : StandBehind needs order) (mem : a ∈ order)
    (need : needs a b) : b ∈ order := by
  obtain ⟨front, rest, rfl⟩ := List.append_of_mem mem
  exact List.mem_append_left _ (h front a rest rfl b need)

/-- What a name of such a list needs, directly or not, never needs itself. -/
theorem StandBehind.acc {needs : String → String → Prop} (h : StandBehind needs order) (mem : a ∈ order) :
    Acc (fun b a => needs a b) a := by
  -- The induction is on how many names stand before the name.
  obtain ⟨front, rest, hsplit⟩ := List.append_of_mem mem
  induction hlength : front.length using Nat.strong_induction_on generalizing a front rest with
  | _ n ih =>
    subst hlength
    refine Acc.intro a fun b hb => ?_
    obtain ⟨before, between, rfl⟩ := List.append_of_mem (h front a rest hsplit b hb)
    refine ih before.length (by simp) (h.mem mem hb) before (between ++ a :: rest) ?_ rfl
    rw [hsplit, List.append_assoc, List.cons_append]

/-- What such a name leads to lies on no cycle. -/
theorem not_cycle_of_acc {needs : String → String → Prop} (h : Acc (fun b a => needs a b) a) :
    ¬ ∃ c, ReflTransGen needs a c ∧ TransGen needs c c := by
  induction h with
  | intro a _ ih =>
    rintro ⟨c, hreaches, hcycle⟩
    rcases hreaches.cases_head with rfl | ⟨b, hb, hreaches⟩
    · obtain ⟨b, hb, hback⟩ := TransGen.head'_iff.mp hcycle
      exact ih b hb ⟨a, hback, hcycle⟩
    · exact ih b hb ⟨c, hreaches, hcycle⟩

/-- Where there are finitely many names, what leads to no cycle is reached from what needs nothing. -/
theorem acc_of_not_cycle {needs : String → String → Prop} (closed : ∀ a b, needs a b → b ∈ names)
    (acyclic : ¬ ∃ c, ReflTransGen needs a c ∧ TransGen needs c c) : Acc (fun b a => needs a b) a := by
  let Reached := {x : String // x ∈ a :: names ∧ ReflTransGen needs a x}
  have : Finite Reached :=
    Set.Finite.to_subtype ((List.finite_toSet (a :: names)).subset fun x hx => hx.1)
  have : IsTrans Reached fun y x => TransGen needs x.1 y.1 := ⟨fun _ _ _ h₁ h₂ => h₂.trans h₁⟩
  have : Std.Irrefl fun y x : Reached => TransGen needs x.1 y.1 :=
    ⟨fun x hx => acyclic ⟨x.1, x.2.2, hx⟩⟩
  have hwf := Finite.wellFounded_of_trans_of_irrefl fun y x : Reached => TransGen needs x.1 y.1
  have hall : ∀ x : Reached, Acc (fun b a => needs a b) x.1 := by
    intro x
    induction x using hwf.induction with
    | _ x ih =>
      refine Acc.intro x.1 fun b hb => ?_
      exact ih ⟨b, List.mem_cons_of_mem _ (closed x.1 b hb), x.2.2.tail hb⟩ (.single hb)
  exact hall ⟨a, List.mem_cons_self, .refl⟩

/-- While definitions are set: those that are set stand behind what they need; those that are set or ready are the
ones that need nothing else than what is set; the others wait for what they need and is not set. -/
structure Waiting.Arranged (all : Waiting) (done ready : List String) (w : Waiting) : Prop where
  behind : StandBehind all.Needs done
  ready : (done ++ ready).Perm (all.without done).free
  waiting : w = (all.without done).bound

theorem Waiting.arranged_start (all : Waiting) : all.Arranged [] all.free all.bound where
  behind := fun _ _ _ hsplit => absurd hsplit (by simp)
  ready := by rw [without_nil, List.nil_append]
  waiting := by rw [without_nil]

/-- One definition is set. -/
theorem Waiting.Arranged.release (h : all.Arranged done (name :: ready) w) (distinct : (all.map (·.1)).Nodup) :
    all.Arranged (done ++ [name]) (ready ++ (w.release name).1) (w.release name).2 where
  behind := by
    refine h.behind.concat fun b hb => ?_
    have hfree : name ∈ (all.without done).free :=
      h.ready.subset (List.mem_append_right _ List.mem_cons_self)
    obtain ⟨names, hnames, hset⟩ := mem_free_without.mp hfree
    obtain ⟨names', hnames', hb⟩ := hb
    obtain ⟨-, rfl⟩ := Prod.mk.inj (List.inj_on_of_nodup_map distinct hnames hnames' rfl)
    exact hset b hb
  ready := by
    have hnow := (all.without done).free_without [name]
    rw [without_without] at hnow
    rw [release_eq, h.waiting]
    refine List.Perm.trans ?_ ((h.ready.append_right _).trans hnow)
    rw [List.append_assoc, List.singleton_append, ← List.cons_append, List.append_assoc]
  waiting := by
    rw [release_eq, h.waiting, bound_without, without_without]

/-- All definitions that can be set are set: enough steps leave none ready. -/
theorem Waiting.Arranged.arrange (h : all.Arranged done ready w) (distinct : (all.map (·.1)).Nodup)
    (enough : all.length ≤ done.length + steps) :
    all.Arranged (done ++ (arrange steps ready w).1) [] (arrange steps ready w).2 := by
  induction steps generalizing done ready w with
  | zero =>
    -- What is set or ready is not more than there is.
    have hlength := h.ready.length_eq
    have hfree : (all.without done).free.length ≤ all.length := by
      unfold free
      rw [List.length_map]
      exact (List.length_filter_le _ _).trans (by rw [without, List.length_map])
    rw [List.length_append] at hlength
    obtain rfl : ready = [] := List.eq_nil_of_length_eq_zero (by omega)
    rw [arrange, List.append_nil]
    exact h
  | succ steps ih =>
    cases ready with
    | nil =>
      rw [arrange, List.append_nil]
      exact h
    | cons name ready =>
      have hrest := ih (h.release distinct) (by rw [List.length_append, List.length_singleton]; omega)
      rwa [List.append_assoc, List.singleton_append] at hrest

/-- The names of a waiting list that are not set, in their order. -/
theorem Waiting.bound_sublist (w : Waiting) (done : List String) :
    ((w.without done).bound.map (·.1)).Sublist (w.map (·.1)) := by
  have hnames : (w.without done).map (·.1) = w.map (·.1) := by rw [without, List.map_map]; rfl
  exact hnames ▸ List.filter_sublist.map _

section Arranged

variable (h : all.Arranged order [] w) (closed : ∀ a b, all.Needs a b → b ∈ all.map (·.1))

include h in
/-- In the end a name is set iff all that it needs is. -/
theorem Waiting.Arranged.mem_order_iff : a ∈ order ↔ ∃ names, (a, names) ∈ all ∧ ∀ b ∈ names, b ∈ order := by
  rw [← mem_free_without, ← h.ready.mem_iff, List.append_nil]

include h closed in
/-- In the end a name waits iff it leads to a cycle. -/
theorem Waiting.Arranged.mem_left_iff : a ∈ w.map (·.1) ↔
    ∃ c, ReflTransGen all.Needs a c ∧ TransGen all.Needs c c := by
  rw [h.waiting, mem_bound_without]
  constructor
  · rintro ⟨b, hb, hset⟩
    by_contra hcycle
    -- Whatever leads to no cycle is set, from what needs nothing on.
    have hall : ∀ x, Acc (fun b a => all.Needs a b) x → x ∈ all.map (·.1) → x ∈ order := by
      intro x hacc
      induction hacc with
      | intro x _ ih =>
        intro hx
        obtain ⟨⟨x, names⟩, hnames, rfl⟩ := List.mem_map.mp hx
        refine h.mem_order_iff.mpr ⟨names, hnames, fun y hy => ?_⟩
        exact ih y ⟨names, hnames, hy⟩ (closed x y ⟨names, hnames, hy⟩)
    exact hset (hall b ((acc_of_not_cycle closed hcycle).inv hb) (closed a b hb))
  · intro hcycle
    by_contra hset
    simp only [not_exists, not_and, not_not] at hset
    exact not_cycle_of_acc (Acc.intro a fun b hb => h.behind.acc (hset b hb)) hcycle

end Arranged

theorem orderNames_eq (all : Waiting) : orderNames all =
    match arrange all.length all.free all.bound with
    | (order, []) => .ok order
    | (_, left) => .error ⟨left.map (·.1)⟩ := rfl

/-- Names are ordered so that each stands behind those it needs, unless some lie on cycles: then those that lead to a
cycle are told, in the order in which they were first seen. -/
theorem orderNames_spec (distinct : (all.map (·.1)).Nodup) (closed : ∀ a b, all.Needs a b → b ∈ all.map (·.1)) :
    (∀ order, orderNames all = .ok order →
      StandBehind all.Needs order ∧ order.Perm (all.map (·.1)) ∧ ∀ a, ¬ TransGen all.Needs a a) ∧
    ∀ e, orderNames all = .error e → e.names.Sublist (all.map (·.1)) ∧ (∃ a, TransGen all.Needs a a) ∧
      ∀ a, a ∈ e.names ↔ ∃ c, ReflTransGen all.Needs a c ∧ TransGen all.Needs c c := by
  obtain ⟨order, left, harranged, hend⟩ : ∃ order left, arrange all.length all.free all.bound = (order, left) ∧
      all.Arranged order [] left := by
    have enough : all.length ≤ ([] : List String).length + all.length := by
      rw [List.length_nil, Nat.zero_add]
    exact ⟨_, _, rfl, by simpa using all.arranged_start.arrange distinct enough⟩
  -- What is left over at the end decides: an order if nothing is, a circle otherwise.
  rw [orderNames_eq, harranged]
  refine ⟨fun order' h => ?_, fun e h => ?_⟩
  · split at h
    · rename_i harranged
      cases harranged
      cases h
      refine ⟨hend.behind, ?_, fun a ha => ?_⟩
      · -- Nothing waits, so everything is free once all is set.
        have hall : ∀ l : Waiting, l.bound = [] → l.free = l.map (·.1) := by
          intro l hbound
          unfold Waiting.free
          rw [List.filter_eq_self.mpr fun x hx => by
            have := List.filter_eq_nil_iff.mp hbound x hx
            simpa using this]
        have hready := hend.ready
        rw [List.append_nil, hall _ hend.waiting.symm] at hready
        rwa [Waiting.without, List.map_map] at hready
      · exact List.not_mem_nil ((hend.mem_left_iff closed).mpr ⟨a, .refl, ha⟩)
    · cases h
  · split at h
    · cases h
    · rename_i hne harranged
      cases harranged
      cases h
      refine ⟨hend.waiting ▸ all.bound_sublist order, ?_, fun a => hend.mem_left_iff closed⟩
      obtain ⟨x, hx⟩ := List.exists_mem_of_ne_nil left hne
      obtain ⟨c, -, hc⟩ := (hend.mem_left_iff closed).mp (List.mem_map_of_mem hx)
      exact ⟨c, hc⟩

end Interface

/-- Whether row `j` holds the first element of a collection, or the first key or value. -/
def Row.Leads (r : Row) (j : Nat) : Prop :=
  ∃ start, r.start = some start ∧
    ((r.kind = .array ∧ j = start) ∨ (r.kind = .dictionary ∧ (j = start ∨ j = start + max r.count 1)))

theorem Row.Leads.kind {r : Row} {j : Nat} (h : r.Leads j) : r.kind = .array ∨ r.kind = .dictionary := by
  obtain ⟨-, -, ⟨hkind, -⟩ | ⟨hkind, -⟩⟩ := h
  · exact Or.inl hkind
  · exact Or.inr hkind

theorem Row.Leads.eq {r : Row} {j : Nat} {firsts : Option Nat × Option Nat} (h : r.Leads j)
    (told : r.firstElements = .ok firsts) : firsts.1 = some j ∨ firsts.2 = some j := by
  obtain ⟨start, hstart, ⟨hkind, rfl⟩ | ⟨hkind, hj⟩⟩ := h
  · rw [Row.firstElements, hstart, hkind] at told
    cases told
    exact Or.inl rfl
  · rw [Row.firstElements, hstart, hkind] at told
    obtain ⟨keys, hkeys, hfirsts⟩ := bind_eq_ok.mp told
    obtain rfl := pure_eq_ok.mp hfirsts
    obtain ⟨-, rfl⟩ := Model.spanFrom_eq_ok.mp hkeys
    rcases hj with rfl | rfl
    · exact Or.inl rfl
    · exact Or.inr rfl

namespace Model

variable {m : Model} {forward : Bool} {ds : Definitions} {name : String} {i n : Nat}

/-- Whether definition `a` needs definition `b`: what nothing defines, and the definition itself, do not count. -/
def Needs (m : Model) (forward : Bool) (ds : Definitions) (a b : String) : Prop :=
  ∃ d names, (a, d) ∈ ds ∧ m.dependencies forward d = .ok names ∧ b ∈ names ∧ b ≠ a ∧ ds.defines b = true

/-- Whether all definitions tell what they need. -/
def Tells (m : Model) (forward : Bool) (ds : Definitions) : Prop :=
  ∀ x ∈ ds, ∃ names, m.dependencies forward x.2 = .ok names

/-- Whether a row that decides on the type of row `i` meets a condition: row `i` itself or, where it is a collection, a
first element of it, however deeply nested. -/
inductive Exposes (m : Model) (P : Row → Prop) : Nat → Prop
  | self {i : Nat} {row : Row} (is : m.row i = .ok row) (meets : P row) : m.Exposes P i
  | element {i j : Nat} {row : Row} (is : m.row i = .ok row) (first : row.Leads j) (inner : m.Exposes P j) :
      m.Exposes P i

/-- Whether the type of row `i` holds a struct by value: it is that struct or a collection of such. -/
def Embeds (m : Model) (name : String) (i : Nat) : Prop :=
  m.Exposes (fun row => row.kind = .struct ∧ row.typeName = some name) i

/-- A collection needs what its first elements need, and its class unless classes are declared in advance. -/
theorem rowDependencies_collection {row : Row} {names : List String} (hrow : m.row i = .ok row)
    (kind : row.kind = .array ∨ row.kind = .dictionary)
    (told : m.rowDependencies forward (n + 1) i = .ok names) :
    (forward = false → row.typeName.toList ⊆ names) ∧
      ∀ j, row.Leads j → ∃ needs, m.rowDependencies forward n j = .ok needs ∧ needs ⊆ names := by
  have htold : ∃ first second firstNames secondNames, row.firstElements = .ok (first, second) ∧
      (∀ j, first = some j → m.rowDependencies forward n j = .ok firstNames) ∧
      (∀ j, second = some j → m.rowDependencies forward n j = .ok secondNames) ∧
      (if forward then [] else row.typeName.toList) ++ firstNames ++ secondNames = names := by
    simp only [rowDependencies, hrow, bind_eq_ok, Except.ok.injEq, exists_eq_left'] at told
    rcases kind with hkind | hkind
    all_goals
      simp only [hkind, bind_eq_ok, Prod.exists] at told
      obtain ⟨first, second, hfirsts, told⟩ := told
      cases first <;> cases second <;> simp only [bind_eq_ok, pure_eq_ok, exists_eq_left'] at told
      · exact ⟨none, none, [], [], hfirsts, by simp, by simp, told⟩
      · obtain ⟨secondNames, hsecond, told⟩ := told
        exact ⟨none, _, [], secondNames, hfirsts, by simp, fun j hj => Option.some.inj hj ▸ hsecond, told⟩
      · obtain ⟨firstNames, hfirst, told⟩ := told
        exact ⟨_, none, firstNames, [], hfirsts, fun j hj => Option.some.inj hj ▸ hfirst, by simp, told⟩
      · obtain ⟨firstNames, hfirst, secondNames, hsecond, told⟩ := told
        exact ⟨_, _, firstNames, secondNames, hfirsts, fun j hj => Option.some.inj hj ▸ hfirst,
          fun j hj => Option.some.inj hj ▸ hsecond, told⟩
  obtain ⟨first, second, firstNames, secondNames, hfirsts, hfirst, hsecond, rfl⟩ := htold
  refine ⟨?_, fun j hj => ?_⟩
  · rintro rfl a ha
    exact List.mem_append_left _ (List.mem_append_left _ ha)
  · rcases hj.eq hfirsts with hj | hj
    · exact ⟨firstNames, hfirst j hj, fun a ha => List.mem_append_left _ (List.mem_append_right _ ha)⟩
    · exact ⟨secondNames, hsecond j hj, fun a ha => List.mem_append_right _ ha⟩

/-- A row needs what the rows that decide on its type need. -/
theorem Exposes.mem_rowDependencies {P : Row → Prop} (h : m.Exposes P i) {names : List String}
    (told : m.rowDependencies forward n i = .ok names)
    (own : ∀ n i row names, m.row i = .ok row → P row → m.rowDependencies forward (n + 1) i = .ok names →
      name ∈ names) : name ∈ names := by
  induction h generalizing n names with
  | self hrow hP =>
    cases n with
    | zero => cases told
    | succ n => exact own n _ _ names hrow hP told
  | element hrow hfirst _ ih =>
    cases n with
    | zero => cases told
    | succ n =>
      obtain ⟨-, hneeds⟩ := rowDependencies_collection hrow hfirst.kind told
      obtain ⟨needs, htold, hsub⟩ := hneeds _ hfirst
      exact hsub (ih htold)

/-- A row needs the structs that it holds by value. -/
theorem Embeds.mem_rowDependencies (h : m.Embeds name i) {names : List String}
    (told : m.rowDependencies forward n i = .ok names) : name ∈ names := by
  refine Exposes.mem_rowDependencies h told ?_
  rintro n i row names hrow ⟨hkind, hname⟩ htold
  simp only [rowDependencies, hrow, hkind, bind_eq_ok, Except.ok.injEq, exists_eq_left', pure_eq_ok] at htold
  obtain ⟨name', hrequired, rfl⟩ := htold
  have hsame := (requireTypeName_eq_ok hrow).mp hrequired
  rw [hname] at hsame
  cases hsame
  exact List.mem_singleton_self _

/-- Definitions have different names. -/
theorem definitions_distinct (h : m.definitions = .ok ds) : (ds.map (·.1)).Nodup := by
  have hadd : ∀ (ds : Definitions) name d, (ds.map (·.1)).Nodup → ((ds.add name d).map (·.1)).Nodup := by
    intro ds name d hds
    unfold Definitions.add
    split
    · exact hds
    · rename_i hnew
      rw [List.map_append]
      refine List.nodup_append.mpr ⟨hds, List.nodup_singleton _, ?_⟩
      rintro a ha b hb rfl
      obtain ⟨x, hx, hname⟩ := List.mem_map.mp ha
      rw [List.map_singleton, List.mem_singleton] at hb
      exact hnew (List.any_eq_true.mpr ⟨x, hx, decide_eq_true (hname.trans hb)⟩)
  let P : Definitions → Prop := fun ds => (ds.map (·.1)).Nodup
  have hstart : P [] := List.nodup_nil
  refine foldlM_keeps (P := P) (fun ds i ds' hds hstep => ?_) hstart h
  unfold addDefinition at hstep
  obtain ⟨row, -, hstep⟩ := bind_eq_ok.mp hstep
  split at hstep
  · split at hstep <;> obtain rfl := pure_eq_ok.mp hstep
    · exact hadd _ _ _ hds
    · exact hds
  · split at hstep
    · obtain rfl := pure_eq_ok.mp hstep
      exact hds
    · simp only [bind_eq_ok, pure_eq_ok] at hstep
      obtain ⟨name, -, rfl⟩ := hstep
      exact hadd _ _ _ hds
  · obtain rfl := pure_eq_ok.mp hstep
    exact hds

/-- A definition with the names that it has to stand behind. -/
def needsOf (m : Model) (forward : Bool) (ds : Definitions) (x : String × Definition) :
    Except (Failure OrderError) (String × List String) := do
  let names ← m.dependencies forward x.2
  return (x.1, names.filter fun n => n ≠ x.1 && ds.defines n)

theorem needsOf_eq_ok {x : String × Definition} {y : String × List String} :
    m.needsOf forward ds x = .ok y ↔ ∃ names, m.dependencies forward x.2 = .ok names ∧
      (x.1, names.filter fun n => n ≠ x.1 && ds.defines n) = y := by
  simp only [needsOf, bind_eq_ok, lift_eq_ok, pure_eq_ok]

/-- What definitions wait for is what they need. -/
theorem needs_of_mapM {needs : Waiting} (h : ds.mapM (m.needsOf forward ds) = .ok needs) :
    m.Tells forward ds ∧ needs.map (·.1) = ds.map (·.1) ∧ needs.Needs = m.Needs forward ds := by
  refine ⟨fun x hx => ?_, map_of_mapM h fun x _ y hy => ?_, funext fun a => funext fun b => propext ⟨?_, ?_⟩⟩
  · obtain ⟨y, hy⟩ := exists_ok_of_mapM h hx
    obtain ⟨names, hnames, -⟩ := needsOf_eq_ok.mp hy
    exact ⟨names, hnames⟩
  · obtain ⟨names, -, rfl⟩ := needsOf_eq_ok.mp hy
    rfl
  · rintro ⟨names, hmem, hb⟩
    obtain ⟨⟨a', d⟩, hx, hy⟩ := (mem_of_mapM h).mp hmem
    obtain ⟨told, htold, hy⟩ := needsOf_eq_ok.mp hy
    cases hy
    obtain ⟨hb, hdefined⟩ := List.mem_filter.mp hb
    rw [Bool.and_eq_true, decide_eq_true_eq] at hdefined
    exact ⟨d, told, hx, htold, hb, hdefined⟩
  · rintro ⟨d, told, hx, htold, hb, hother, hdefined⟩
    refine ⟨_, (mem_of_mapM h).mpr ⟨(a, d), hx, needsOf_eq_ok.mpr ⟨told, htold, rfl⟩⟩, ?_⟩
    exact List.mem_filter.mpr ⟨hb, by rw [hdefined, Bool.and_true, decide_eq_true hother]⟩

/-- Where all definitions tell what they need, their names are put in order; otherwise there is a fault. -/
theorem orderedDefinitions_eq (m : Model) (forward : Bool) (ds : Definitions) :
    (m.Tells forward ds ∧ ∃ needs : Waiting, needs.map (·.1) = ds.map (·.1) ∧
      needs.Needs = m.Needs forward ds ∧
      m.orderedDefinitions forward ds = (orderNames needs).mapError .error) ∨
    (¬ m.Tells forward ds ∧ ∃ fault, m.orderedDefinitions forward ds = .error (.fault fault)) := by
  have hunfold : m.orderedDefinitions forward ds =
      ds.mapM (m.needsOf forward ds) >>= fun needs => (orderNames needs).mapError .error := rfl
  rw [hunfold]
  cases hneeds : ds.mapM (m.needsOf forward ds) with
  | ok needs =>
    obtain ⟨htells, hnames, hsame⟩ := needs_of_mapM hneeds
    exact Or.inl ⟨htells, needs, hnames, hsame, rfl⟩
  | error e =>
    obtain ⟨x, hx, herror⟩ := exists_error_of_mapM hneeds
    refine Or.inr ⟨fun htells => ?_, ?_⟩
    · obtain ⟨names, hnames⟩ := htells x hx
      rw [needsOf_eq_ok.mpr ⟨names, hnames, rfl⟩] at herror
      cases herror
    · unfold needsOf at herror
      cases htold : m.dependencies forward x.2 with
      | ok names =>
        rw [htold] at herror
        cases herror
      | error fault =>
        rw [htold] at herror
        cases herror
        exact ⟨fault, rfl⟩

theorem closed_of_needs {a b : String} (h : m.Needs forward ds a b) : b ∈ ds.map (·.1) := by
  obtain ⟨-, -, -, -, -, -, hdefined⟩ := h
  obtain ⟨x, hx, hname⟩ := List.any_eq_true.mp hdefined
  exact of_decide_eq_true hname ▸ List.mem_map_of_mem hx

/-- Where definitions have an order, each is there once and stands behind those that it needs. -/
theorem orderedDefinitions_behind {order : List String} (defined : m.definitions = .ok ds)
    (h : m.orderedDefinitions forward ds = .ok order) : m.Tells forward ds ∧
      StandBehind (m.Needs forward ds) order ∧ order.Perm (ds.map (·.1)) ∧
      ∀ a, ¬ TransGen (m.Needs forward ds) a a := by
  rcases m.orderedDefinitions_eq forward ds with ⟨htells, needs, hnames, hneeds, heq⟩ | ⟨-, fault, heq⟩
  · rw [heq] at h
    obtain ⟨hspec, -⟩ := orderNames_spec (hnames ▸ definitions_distinct defined)
      fun a b hb => hnames ▸ closed_of_needs (hneeds ▸ hb)
    have hordered := hspec order (mapError_eq_ok.mp h)
    rw [hneeds, hnames] at hordered
    exact ⟨htells, hordered⟩
  · rw [heq] at h
    cases h

/-- Where definitions have no order, those are told that lie on a cycle or lead to one. -/
theorem orderedDefinitions_cycle {e : OrderError} (defined : m.definitions = .ok ds)
    (h : m.orderedDefinitions forward ds = .error (.error e)) : m.Tells forward ds ∧
      e.names.Sublist (ds.map (·.1)) ∧ (∃ a, TransGen (m.Needs forward ds) a a) ∧
      ∀ a, a ∈ e.names ↔ ∃ c, ReflTransGen (m.Needs forward ds) a c ∧ TransGen (m.Needs forward ds) c c := by
  rcases m.orderedDefinitions_eq forward ds with ⟨htells, needs, hnames, hneeds, heq⟩ | ⟨-, fault, heq⟩
  · rw [heq] at h
    obtain ⟨-, hspec⟩ := orderNames_spec (hnames ▸ definitions_distinct defined)
      fun a b hb => hnames ▸ closed_of_needs (hneeds ▸ hb)
    have herror : orderNames needs = .error e := by
      cases hanswer : orderNames needs with
      | ok order => rw [hanswer] at h; cases h
      | error e' => rw [hanswer] at h; cases h; rfl
    have hcycle := hspec e herror
    rw [hneeds, hnames] at hcycle
    exact ⟨htells, hcycle⟩
  · rw [heq] at h
    cases h

/-- Definitions that tell what they need have an order, or it is told which have none. -/
theorem orderedDefinitions_answers (h : m.Tells forward ds) :
    (∃ order, m.orderedDefinitions forward ds = .ok order) ∨
      ∃ e, m.orderedDefinitions forward ds = .error (.error e) := by
  rcases m.orderedDefinitions_eq forward ds with ⟨-, needs, -, -, heq⟩ | ⟨hfault, -⟩
  · rw [heq]
    cases orderNames needs with
    | ok order => exact Or.inl ⟨order, rfl⟩
    | error e => exact Or.inr ⟨e, rfl⟩
  · exact absurd h hfault

/-- What a field needs its object needs. -/
theorem exists_fieldNames {k j : Nat} {span : Span} {names : List String}
    (told : m.dependencies forward (.object k) = .ok names) (hspan : m.members k = .ok span) (hj : j < span.length) :
    ∃ fieldNames, m.rowDependencies forward (m.size + 1) (span.start + j) = .ok fieldNames ∧
      fieldNames ⊆ names := by
  obtain ⟨span', hspan', hrest⟩ := bind_eq_ok.mp told
  obtain rfl := Except.ok.inj (hspan.symm.trans hspan')
  obtain ⟨lists, hlists, hjoined⟩ := bind_eq_ok.mp hrest
  obtain rfl := pure_eq_ok.mp hjoined
  obtain ⟨hlength, hmembers⟩ := Span.mapM_eq_ok hlists
  have hlist : lists[j]? = some lists[j] := List.getElem?_eq_getElem (by omega)
  exact ⟨lists[j], hmembers j _ hlist,
    fun name hname => List.mem_flatten.mpr ⟨lists[j], List.mem_of_getElem? hlist, hname⟩⟩

end Model

namespace Options

/-- A rig with two structs that hold each other, and with a list of structs that hold nothing. -/
def mutualStructs : DataUnit :=
  let struct (name : String) (held : List String) : Value :=
    .custom ⟨name, 4, 4, CustomStruct.zeroed 4, ["struct " ++ name ++ ";"], held⟩
  ⟨"rig", ⟨"Rig", [⟨"m_a", .custom "a_t", struct "a_t" ["b_t"]⟩, ⟨"m_b", .custom "b_t", struct "b_t" ["a_t"]⟩,
    ⟨"m_c", .list (.custom "c_t"), .sequence [struct "c_t" []]⟩]⟩⟩

end Options

end ObjectPack
