import ObjectPack.Model.Solve
import ObjectPack.Proofs.Draft.Shift
import ObjectPack.Proofs.Packing.Pool

/-!
# Models from another supply

A model whose texts took their references later is the same model with other names for its texts
(`Model.Shifted`).  Rows point to texts by index, so whatever looks at rows only gives the same for both
models; solving the layout is such a computation (`Model.Shifted.solve`).
-/

namespace ObjectPack.Model

open Outcome

variable {t : Nat} {m m' : Model} {α : Type}

/-- The model with shifted references of its texts. -/
def shift (t : Nat) (m : Model) : Model :=
  { m with texts := m.texts.rename (.shift t), supply := ⟨m.supply.next + t⟩ }

/-- Whether a model is another one from a supply that began `t` references later. -/
structure Shifted (t : Nat) (m m' : Model) : Prop where
  eq : m' = m.shift t
  positive : 0 < m.supply.next

/-- Whether two models are the same but for the references of their texts: neither supply need be the
later one. -/
def Alike (m m' : Model) : Prop := ∃ m₀ s t, Shifted s m₀ m ∧ Shifted t m₀ m'

/-- Alike models have the same rows, the same names and the same texts. -/
theorem Alike.same (h : m.Alike m') : m'.rows = m.rows ∧ m'.names = m.names ∧
    m'.texts.entries.map (·.text) = m.texts.entries.map (·.text) := by
  obtain ⟨m₀, s, t, ⟨rfl, -⟩, ⟨rfl, -⟩⟩ := h
  refine ⟨rfl, rfl, ?_⟩
  show (m₀.texts.entries.map _).map _ = (m₀.texts.entries.map _).map _
  rw [List.map_map, List.map_map]
  rfl

/-- Whether two results hold such models and agree in the rest. -/
def ShiftedWith (t : Nat) (r r' : Model × α) : Prop := r.1.Shifted t r'.1 ∧ r'.2 = r.2

theorem Shifted.foldBooleans (h : m.Shifted t m') (i : Nat) :
    Follows (Shifted t) (m.foldBooleans i) (m'.foldBooleans i) := by
  obtain ⟨rfl, positive⟩ := h
  unfold Model.foldBooleans
  refine .bind_same fun members _ => .bind_same fun fields _ => ?_
  dsimp only
  split
  · exact .ok ⟨rfl, positive⟩
  · exact .ok ⟨rfl, positive⟩

theorem Shifted.foldAll (h : m.Shifted t m') : Follows (Shifted t) m.foldAll m'.foldAll := by
  obtain rfl := h.eq
  refine .foldlM (fun m m' i h => ?_) _ h
  obtain rfl := h.eq
  have hobject : (m.shift t).isObject i = m.isObject i := rfl
  rw [hobject]
  split
  · exact h.foldBooleans i
  · exact .ok h

theorem Shifted.swap (h : m.Shifted t m') (i j : Nat) :
    Follows (Shifted t) (m.swap i j) (m'.swap i j) := by
  obtain ⟨rfl, positive⟩ := h
  exact .bind_same fun _ _ => .bind_same fun _ _ => .ok ⟨rfl, positive⟩

theorem Shifted.sortPass (h : m.Shifted t m') (pairs i : Nat) (moved : Bool) :
    Follows (ShiftedWith t) (Model.sortPass pairs i m moved) (Model.sortPass pairs i m' moved) := by
  induction pairs generalizing i m m' moved with
  | zero => exact .ok ⟨h, rfl⟩
  | succ pairs ih =>
    obtain rfl := h.eq
    unfold Model.sortPass
    refine .bind_same fun order _ => ?_
    cases order with
    | gt => exact (h.swap i (i + 1)).bind fun _ _ h => ih h _ _
    | lt => exact ih h _ _
    | eq => exact ih h _ _

theorem Shifted.sortPasses (h : m.Shifted t m') (s : Span) (passes : Nat) (moved : Bool) :
    Follows (ShiftedWith t) (Model.sortPasses s passes m moved) (Model.sortPasses s passes m' moved) := by
  induction passes generalizing m m' moved with
  | zero => exact .ok ⟨h, rfl⟩
  | succ passes ih =>
    unfold Model.sortPasses
    refine (h.sortPass _ _ _).bind ?_
    rintro ⟨m, _⟩ ⟨m', again⟩ ⟨h, rfl⟩
    cases again with
    | true => exact ih h _
    | false => exact .ok ⟨h, rfl⟩

theorem Shifted.sortFields (h : m.Shifted t m') (i : Nat) :
    Follows (ShiftedWith t) (m.sortFields i) (m'.sortFields i) := by
  obtain rfl := h.eq
  unfold Model.sortFields
  refine .bind_same fun members _ => ?_
  split
  · exact .ok ⟨h, rfl⟩
  · exact h.sortPasses members _ _

theorem Shifted.sortAll (h : m.Shifted t m') : Follows (ShiftedWith t) m.sortAll m'.sortAll := by
  obtain rfl := h.eq
  refine .foldlM ?_ _ ⟨h, rfl⟩
  rintro ⟨m, moved⟩ ⟨m', _⟩ i ⟨h, rfl⟩
  obtain rfl : m' = m.shift t := h.eq
  have hobject : (m.shift t).isObject i = m.isObject i := rfl
  dsimp only
  rw [hobject]
  split
  · refine (h.sortFields i).bind ?_
    rintro ⟨m, now⟩ ⟨m', _⟩ ⟨h, rfl⟩
    exact .ok ⟨h, rfl⟩
  · exact .ok ⟨h, rfl⟩

theorem Shifted.sortUntilStable (h : m.Shifted t m') (limit passes : Nat) :
    Follows (ShiftedWith t) (Model.sortUntilStable limit m passes)
      (Model.sortUntilStable limit m' passes) := by
  induction limit generalizing m m' passes with
  | zero => exact .ok ⟨h, rfl⟩
  | succ limit ih =>
    unfold Model.sortUntilStable
    refine h.sortAll.bind ?_
    rintro ⟨m, _⟩ ⟨m', moved⟩ ⟨h, rfl⟩
    cases moved with
    | true => exact ih h _
    | false => exact .ok ⟨h, rfl⟩

/-- Solving a shifted model gives the shifted solution. -/
theorem Shifted.solve (h : m.Shifted t m') : Follows (ShiftedWith t) m.solve m'.solve := by
  refine h.foldAll.bind fun m m' h => ?_
  obtain rfl := h.eq
  exact h.sortUntilStable _ _

end ObjectPack.Model
