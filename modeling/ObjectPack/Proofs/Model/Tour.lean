import Mathlib.SetTheory.Cardinal.Finite
import ObjectPack.Proofs.Model.Fold

/-!
# Loops over a table that moves

Solving the layout runs through the table by index, while the rows of the objects that it comes to move.
It meets every object exactly once nevertheless, each time that it runs (`Model.Tour`): what moves at the
turn of an object stands behind the object, and stays behind it.
-/

namespace ObjectPack

open Outcome

/-- The states of a loop over indices, together with what goes along with them. -/
theorem foldlM_states {α β ε : Type} {f : α → Nat → Except ε α} (good : Nat → α → β → Prop)
    (moves : Nat → β → β → Prop) {n : Nat} {a a' : α} {b : β} (start : good 0 a b)
    (turn : ∀ t a b a', good t a b → f a t = .ok a' → ∃ b', good (t + 1) a' b' ∧ moves t b b')
    (h : (List.range n).foldlM f a = .ok a') : ∃ (as : Nat → α) (bs : Nat → β),
      as 0 = a ∧ as n = a' ∧ bs 0 = b ∧ (∀ t ≤ n, good t (as t) (bs t)) ∧
      ∀ t < n, f (as t) t = .ok (as (t + 1)) ∧ moves t (bs t) (bs (t + 1)) := by
  induction n generalizing a' with
  | zero =>
    cases h
    refine ⟨fun _ => a, fun _ => b, rfl, rfl, rfl, fun t ht => ?_, fun t ht => by cases ht⟩
    obtain rfl := Nat.le_zero.mp ht
    exact start
  | succ n ih =>
    rw [List.range_succ, List.foldlM_append] at h
    obtain ⟨middle, hfirst, hlast⟩ := bind_eq_ok.mp h
    have hturn : f middle n = .ok a' := by
      rw [List.foldlM_cons] at hlast
      obtain ⟨_, hturn, hnil⟩ := bind_eq_ok.mp hlast
      exact pure_eq_ok.mp hnil ▸ hturn
    obtain ⟨as, bs, h0, hn, hb, hgood, hturns⟩ := ih hfirst
    obtain ⟨b', hgood', hmoves⟩ := turn n middle (bs n) a' (hn ▸ hgood n (Nat.le_refl n)) hturn
    -- The last state is put behind the others.
    have hold : ∀ {γ : Type} (s : Nat → γ) (c : γ) (t : Nat), t ≤ n → Function.update s (n + 1) c t = s t :=
      fun s c t ht => Function.update_of_ne (by omega) c s
    refine ⟨Function.update as (n + 1) a', Function.update bs (n + 1) b', ?_, ?_, ?_, ?_, ?_⟩
    · rw [hold as a' 0 (Nat.zero_le n), h0]
    · exact Function.update_self _ _ _
    · rw [hold bs b' 0 (Nat.zero_le n), hb]
    · intro t ht
      rcases Nat.le_succ_iff.mp ht with ht | rfl
      · rw [hold as a' t ht, hold bs b' t ht]
        exact hgood t ht
      · rw [Function.update_self, Function.update_self]
        exact hgood'
    · intro t ht
      rw [hold as a' t (by omega), hold bs b' t (by omega)]
      rcases Nat.lt_succ_iff_lt_or_eq.mp ht with hlt | rfl
      · rw [hold as a' (t + 1) hlt, hold bs b' (t + 1) hlt]
        exact hturns t hlt
      · rw [Function.update_self, Function.update_self, hn]
        exact ⟨hturn, hmoves⟩

/-- Something that stays once a counter has reached it, and until then stays ahead of the counter, is
met once. -/
theorem existsUnique_turn {n : Nat} {p : Nat → Nat} (stays : ∀ t < n, p t ≤ t → p (t + 1) = p t)
    (ahead : ∀ t < n, t < p t → t < p (t + 1)) (bounded : p n < n) : ∃! t, t < n ∧ p t = t := by
  have hmet : ∀ t ≤ n, (∃ s < t, p s = s) ∨ t ≤ p t := by
    intro t ht
    induction t with
    | zero => exact Or.inr (Nat.zero_le _)
    | succ t ih =>
      rcases ih (by omega) with ⟨s, hs, hps⟩ | hle
      · exact Or.inl ⟨s, by omega, hps⟩
      · rcases Nat.lt_or_eq_of_le hle with hlt | heq
        · exact Or.inr (ahead t ht hlt)
        · exact Or.inl ⟨t, Nat.lt_succ_self t, heq.symm⟩
  have hstays : ∀ s t, s ≤ t → t ≤ n → p s = s → p t = s := by
    intro s t hst
    induction t, hst using Nat.le_induction with
    | base => exact fun _ => id
    | succ t hst ih =>
      intro ht hps
      have hpt := ih (by omega) hps
      rw [stays t ht (hpt ▸ hst), hpt]
  rcases hmet n (Nat.le_refl n) with ⟨s, hs, hps⟩ | hle
  · refine ⟨s, ⟨hs, hps⟩, ?_⟩
    rintro t ⟨ht, hpt⟩
    rcases Nat.le_total s t with hst | hts
    · rw [← hpt, hstays s t hst (by omega) hps]
    · rw [← hps, hstays t s hts (by omega) hpt]
  · omega

namespace Model

variable {m m' m₁ m₂ m₃ : Model} {top i j k t : Nat} {o r owner : Row} {done : Nat → Prop}
  {p q : Nat → Nat}

/-! ### How far rows move -/

/-- A model has room for the places of all rows of another one. -/
theorem size_le_of_injective (injective : ∀ i j, i < m.size → j < m.size → p i = p j → i = j)
    (inside : ∀ i < m.size, p i < m'.size) : m.size ≤ m'.size := by
  have hinjective : Function.Injective fun i : Fin m.size => (⟨p i, inside i i.isLt⟩ : Fin m'.size) :=
    fun i j heq => Fin.ext (injective i j i.isLt j.isLt (Fin.mk.inj heq))
  simpa using Nat.card_le_card_of_injective _ hinjective

namespace Tracks

/-- Rows that are no booleans stay in the former table. -/
theorem place_lt (h : Tracks m m' done p) (wellFormed : m.WellFormed top) (hrow : m.row i = .ok r)
    (kind : r.kind ≠ .bool) : p i < m.size := by
  by_cases howned : ∃ k o, m.IsObject k o ∧ done k ∧ o.Owns i
  · obtain ⟨k, o, ho, hdone, howns⟩ := howned
    exact wellFormed.inside k o ho.1 _ (owns_of_foldedRow (h.field k o i r ho hdone howns hrow kind))
  · rw [h.still i fun k o ho hdone howns => howned ⟨k, o, ho, hdone, howns⟩]
    exact lt_size_of_row hrow

theorem size_le (h : Tracks m m' done p) : m.size ≤ m'.size :=
  size_le_of_injective h.injective fun _ hi => h.lt_size hi

end Tracks

/-- Whether the objects of a model that stand up to a turn stay where they are, and whether those that
stand behind it stay behind it. -/
def Advances (m : Model) (t : Nat) (p q : Nat → Nat) : Prop :=
  ∀ i o, m.IsObject i o → (p i ≤ t → q i = p i) ∧ (t < p i → t < q i)

/-- A turn moves only what stands behind it. -/
theorem Tracks.turn (h : Tracks m₁ m₂ (· = t) q) (ordered : m₁.Ordered) :
    (∀ j ≤ t, q j = j) ∧ ∀ j r, m₁.row j = .ok r → r.kind ≠ .bool → t < j → t < q j := by
  constructor
  · intro j hj
    apply h.still
    rintro k o ho rfl howns
    have hlow := ordered.below k o j ho.1 ho.kind_ne howns
    omega
  · intro j r hrow hkind hj
    by_cases howned : ∃ o, m₁.IsObject t o ∧ o.Owns j
    · obtain ⟨o, ho, howns⟩ := howned
      exact ordered.below t o _ ho.1 ho.kind_ne
        (owns_of_foldedRow (h.field t o j r ho rfl howns hrow hkind))
    · rw [h.still j]
      · exact hj
      · rintro k o ho rfl howns
        exact howned ⟨o, ho, howns⟩

/-! ### Turns -/

/-- The turn of row `t` while booleans are folded. -/
def foldTurn (m : Model) (t : Nat) : Except Fault Model :=
  if m.isObject t then m.foldBooleans t else pure m

/-- The turn of row `t` while fields are sorted. -/
def sortTurn (m : Model) (t : Nat) : Except Fault Model :=
  if m.isObject t then (m.sortFields t).map (·.1) else pure m

theorem isObject_eq_true : m.isObject i = true ↔ ∃ o, m.IsObject i o := by
  constructor
  · exact row_of_isObject
  · rintro ⟨o, hrow, hkind⟩
    unfold isObject
    rw [← Array.getElem?_toList, row_eq_ok.mp hrow]
    exact decide_eq_true hkind

theorem foldBooleans_keeps (whole : m.Whole top) (ordered : m.Ordered) (object : m.IsObject i owner)
    (h : m.foldBooleans i = .ok m') : m'.Whole top ∧ m'.Ordered := by
  rcases foldBooleans_folds whole.toWellFormed object.1 object.2 h with ⟨rfl, -⟩ | ⟨_, _, _, hfolds⟩
  · exact ⟨whole, ordered⟩
  · exact ⟨Rearranges.whole hfolds whole, Rearranges.ordered hfolds whole.toWellFormed ordered⟩

/-- The turn of an object folds its booleans, wherever it stands by then. -/
theorem foldTurn_tracks (whole : m.Whole top) (whole' : m₁.Whole top) (ordered : m₁.Ordered)
    (tracks : Tracks m m₁ (p · < t) p) (h : m₁.foldTurn t = .ok m₂) :
    ∃ q, (m₂.Whole top ∧ m₂.Ordered ∧ Tracks m m₂ (q · < t + 1) q) ∧ m.Advances t p q := by
  unfold foldTurn at h
  split at h
  · rename_i hobject
    obtain ⟨o', ho'⟩ := isObject_eq_true.mp hobject
    obtain ⟨hwhole, hordered⟩ := foldBooleans_keeps whole' ordered ho' h
    obtain ⟨k, o, ho, rfl⟩ := tracks.objects t o' ho'
    obtain ⟨q, hq⟩ := foldBooleans_tracks whole'.toWellFormed ho' h
    obtain ⟨hstays, hahead⟩ := hq.turn ordered
    have hadvances : m.Advances (p k) p (fun i => q (p i)) := by
      intro i r hr
      obtain ⟨r', hrow', hkind⟩ := tracks.exists_row hr.1
      exact ⟨hstays _, hahead _ r' hrow' (by rw [hkind, hr.2]; decide)⟩
    refine ⟨fun i => q (p i), ⟨hwhole, hordered, ?_⟩, hadvances⟩
    have hnext := tracks.next hq whole.toWellFormed whole'.toWellFormed ho (Nat.lt_irrefl _)
    refine hnext.congr fun i r hr => ?_
    obtain ⟨hsame, hlater⟩ := hadvances i r hr
    constructor
    · intro hpast
      have hle : p i ≤ p k := by
        rcases hpast with hlt | rfl
        · exact Nat.le_of_lt hlt
        · exact Nat.le_refl _
      exact Nat.lt_succ_of_le ((hsame hle).symm ▸ hle)
    · intro hlt
      rcases Nat.lt_trichotomy (p i) (p k) with hlow | heq | hhigh
      · exact Or.inl hlow
      · exact Or.inr (tracks.injective i k (lt_size_of_row hr.1) (lt_size_of_row ho.1) heq)
      · exact absurd (hlater hhigh) (Nat.not_lt.mpr (Nat.le_of_lt_succ hlt))
  · rename_i hother
    obtain rfl := pure_eq_ok.mp h
    refine ⟨p, ⟨whole', ordered, tracks.congr fun i o ho => ?_⟩, fun i o _ => ⟨fun _ => rfl, id⟩⟩
    -- No object has its turn.
    have hne : p i ≠ t := by
      rintro rfl
      obtain ⟨r', hrow', hkind⟩ := tracks.exists_row ho.1
      exact hother (isObject_eq_true.mpr ⟨r', hrow', hkind.trans ho.2⟩)
    omega

/-- A loop that also tells whether rows have moved takes the same turns. -/
theorem sortTurn_eq {moved : Bool} {result : Model × Bool}
    (h : (if m.isObject t then do
        let (m, now) ← m.sortFields t
        return (m, moved || now)
      else return (m, moved)) = (.ok result : Except Fault (Model × Bool))) :
    m.sortTurn t = .ok result.1 := by
  unfold sortTurn
  split at h
  · rename_i hobject
    obtain ⟨sorted, hsort, hresult⟩ := bind_eq_ok.mp h
    obtain rfl := pure_eq_ok.mp hresult
    rw [if_pos hobject, hsort]
    rfl
  · rename_i hother
    obtain rfl := pure_eq_ok.mp h
    exact if_neg hother

/-- Exchanging two rows, row by row. -/
theorem row_swap (h : m.swap i j = .ok m') (k : Nat) : m'.row (Equiv.swap i j k) = m.row k := by
  unfold swap at h
  simp only [bind_eq_ok, pure_eq_ok] at h
  obtain ⟨a, ha, b, hb, rfl⟩ := h
  have hi : i < m.rows.size := lt_size_of_row ha
  have hj : j < m.rows.size := lt_size_of_row hb
  have ha := indexed_eq_ok.mp ha
  have hb := indexed_eq_ok.mp hb
  show indexed ((m.rows.setIfInBounds i b).setIfInBounds j a)[Equiv.swap i j k]? = indexed m.rows[k]?
  congr 1
  rw [Array.getElem?_setIfInBounds, Array.getElem?_setIfInBounds, Array.size_setIfInBounds]
  by_cases hki : k = i
  · subst hki
    rw [Equiv.swap_apply_left, if_pos rfl, if_pos hj, ha]
  · by_cases hkj : k = j
    · subst hkj
      rw [Equiv.swap_apply_right, if_neg hki, if_pos rfl, if_pos hi, hb]
    · rw [Equiv.swap_apply_of_ne_of_ne hki hkj, if_neg (Ne.symm hkj), if_neg (Ne.symm hki)]

/-- Sorting moves fields of the object only. -/
theorem sortFields_moves {result : Model × Bool} (hrow : m.row i = .ok owner) (h : m.sortFields i = .ok result) :
    ∃ σ : Equiv.Perm Nat, (∀ j, result.1.row (σ j) = m.row j) ∧ ∀ j, ¬ owner.Owns j → σ j = j := by
  refine sortFields_keeps (P := fun m' : Model => ∃ σ : Equiv.Perm Nat, (∀ j, m'.row (σ j) = m.row j) ∧
    ∀ j, ¬ owner.Owns j → σ j = j) ?_ hrow ⟨Equiv.refl _, fun _ => rfl, fun _ _ => rfl⟩ h
  rintro m₁ m₂ a b ⟨σ, hrows, houtside⟩ ha hb hswap
  refine ⟨σ.trans (Equiv.swap a b), fun j => (row_swap hswap _).trans (hrows j), fun j hj => ?_⟩
  show Equiv.swap a b (σ j) = j
  rw [houtside j hj]
  exact Equiv.swap_apply_of_ne_of_ne (fun heq => hj (heq ▸ ha)) fun heq => hj (heq ▸ hb)

/-- Sorting exchanges fields of the object. -/
theorem sortFields_permutes {result : Model × Bool} (whole : m.Whole top) (ordered : m.Ordered)
    (object : m.IsObject i owner) (h : m.sortFields i = .ok result) :
    result.1.Whole top ∧ result.1.Ordered ∧ ∃ σ : Equiv.Perm Nat,
      (∀ j, result.1.row (σ j) = m.row j) ∧ ∀ j, ¬ owner.Owns j → σ j = j := by
  have hkept : result.1.row i = .ok owner ∧ result.1.Whole top ∧ result.1.Ordered := by
    refine sortFields_keeps (P := fun m' => m'.row i = .ok owner ∧ m'.Whole top ∧ m'.Ordered) ?_ object.1
      ⟨object.1, whole, ordered⟩ h
    rintro m₁ m₂ a b ⟨hrow, hwhole, hordered⟩ ha hb hswap
    obtain ⟨hwhole', hrow'⟩ := swap_whole hwhole hrow object.2 ha hb hswap
    obtain ⟨_, _, _, _, _, hrearranges⟩ :=
      swap_rearranges hwhole.toWellFormed hrow object.2 ha hb hswap
    exact ⟨hrow', hwhole', hrearranges.ordered hwhole.toWellFormed hordered⟩
  exact ⟨hkept.2.1, hkept.2.2, sortFields_moves object.1 h⟩

/-- The turn of an object sorts its fields, wherever it stands by then. -/
theorem sortTurn_tracks (whole : m.Whole top) (whole' : m₁.Whole top) (ordered : m₁.Ordered)
    (tracks : Tracks m m₁ (fun _ => True) p) (h : m₁.sortTurn t = .ok m₂) :
    ∃ q, (m₂.Whole top ∧ m₂.Ordered ∧ Tracks m m₂ (fun _ => True) q) ∧ m.Advances t p q := by
  unfold sortTurn at h
  split at h
  · rename_i hobject
    obtain ⟨owner, howner⟩ := isObject_eq_true.mp hobject
    obtain ⟨result, hsort, rfl⟩ := map_eq_ok.mp h
    obtain ⟨hwhole, hordered, σ, hrows, houtside⟩ := sortFields_permutes whole' ordered howner hsort
    have hbelow : ∀ j, owner.Owns j → t < j := fun j => ordered.below t owner j howner.1 howner.kind_ne
    refine ⟨fun i => σ (p i), ⟨hwhole, hordered, ?_⟩, fun i o _ => ⟨fun hle => ?_, fun hlt => ?_⟩⟩
    · exact tracks.permute (fun _ _ _ => trivial) whole.toWellFormed whole'.toWellFormed howner hrows
        houtside
    · exact houtside _ fun howns => Nat.not_lt.mpr hle (hbelow _ howns)
    · show t < σ (p i)
      by_cases howns : owner.Owns (σ (p i))
      · exact hbelow _ howns
      · rwa [σ.injective (houtside _ howns)]
  · obtain rfl := pure_eq_ok.mp h
    exact ⟨p, ⟨whole', ordered, tracks⟩, fun _ _ _ => ⟨fun _ => rfl, id⟩⟩

/-! ### Tours -/

/-- Whether a loop takes the rows of a table in turn and meets every object of a model exactly once,
while the objects that are done at each turn have been folded. -/
structure Tour (m : Model) (n : Nat) (turn : Model → Nat → Except Fault Model) (done : Nat → Nat → Prop)
    (states : Nat → Model) (places : Nat → Nat → Nat) : Prop where
  turns : ∀ t < n, turn (states t) t = .ok (states (t + 1))
  tracks : ∀ t ≤ n, Tracks m (states t) (done t) (places t)
  once : ∀ i o, m.IsObject i o → ∃! t, t < n ∧ places t i = t

/-- Whether the booleans of every object have been folded once. -/
def FoldedOnce (m m' : Model) (q : Nat → Nat) : Prop :=
  ∃ states places, Tour m m.size foldTurn (fun t i => places t i < t) states places ∧
    states 0 = m ∧ states m.size = m' ∧ places 0 = id ∧ places m.size = q

/-- Whether the fields of every object have been sorted once. -/
def SortedOnce (m m₁ m₂ : Model) (p q : Nat → Nat) : Prop :=
  ∃ states places, Tour m m₁.size sortTurn (fun _ _ => True) states places ∧
    states 0 = m₁ ∧ states m₁.size = m₂ ∧ places 0 = p ∧ places m₁.size = q

/-- A loop whose turns move only what stands behind them meets every object once. -/
theorem existsUnique_place {n : Nat} {places : Nat → Nat → Nat}
    (advances : ∀ t < n, m.Advances t (places t) (places (t + 1))) (object : m.IsObject i o)
    (bounded : places n i < n) : ∃! t, t < n ∧ places t i = t :=
  existsUnique_turn (fun t ht => (advances t ht i o object).1) (fun t ht => (advances t ht i o object).2)
    bounded

theorem foldAll_foldedOnce (whole : m.Whole top) (ordered : m.Ordered) (h : m.foldAll = .ok m') :
    ∃ q, m'.Whole top ∧ m'.Ordered ∧ Tracks m m' (fun _ => True) q ∧ m.FoldedOnce m' q := by
  have hloop : (List.range m.size).foldlM foldTurn m = .ok m' := h
  obtain ⟨states, places, hfirst, hlast, hplaces, hgood, hturns⟩ := foldlM_states
    (fun t m' p => m'.Whole top ∧ m'.Ordered ∧ Tracks m m' (p · < t) p) m.Advances
    ⟨whole, ordered, .refl whole.toWellFormed fun _ _ _ _ _ hnone => absurd hnone (Nat.not_lt_zero _)⟩
    (fun _ _ _ _ hgood hturn => foldTurn_tracks whole hgood.1 hgood.2.1 hgood.2.2 hturn) hloop
  obtain ⟨hwhole, hordered, htracks⟩ := hgood m.size (Nat.le_refl _)
  have hbound : ∀ i o, m.IsObject i o → places m.size i < m.size := fun i o ho =>
    htracks.place_lt whole.toWellFormed ho.1 (by rw [ho.2]; decide)
  rw [hlast] at hwhole hordered htracks
  refine ⟨places m.size, hwhole, hordered, ?_, states, places, ?_, hfirst, hlast, hplaces, rfl⟩
  · exact htracks.congr fun i o ho => ⟨fun _ => trivial, fun _ => hbound i o ho⟩
  · exact
      { turns := fun t ht => (hturns t ht).1
        tracks := fun t ht => (hgood t ht).2.2
        once := fun i o ho => existsUnique_place (fun t ht => (hturns t ht).2) ho (hbound i o ho) }

theorem sortAll_sortedOnce {result : Model × Bool} (whole : m.Whole top) (whole' : m₁.Whole top)
    (ordered : m₁.Ordered) (tracks : Tracks m m₁ (fun _ => True) p) (h : m₁.sortAll = .ok result) :
    ∃ q, result.1.Whole top ∧ result.1.Ordered ∧ Tracks m result.1 (fun _ => True) q ∧
      m.SortedOnce m₁ result.1 p q := by
  unfold sortAll at h
  obtain ⟨states, places, hfirst, hlast, hplaces, hgood, hturns⟩ := foldlM_states
    (fun _ (s : Model × Bool) p => s.1.Whole top ∧ s.1.Ordered ∧ Tracks m s.1 (fun _ => True) p)
    m.Advances ⟨whole', ordered, tracks⟩ (by
      rintro t ⟨m₁, moved⟩ p ⟨m₂, moved'⟩ ⟨hwhole, hordered, htracks⟩ hturn
      exact sortTurn_tracks whole hwhole hordered htracks (sortTurn_eq hturn)) h
  obtain ⟨hwhole, hordered, htracks⟩ := hgood m₁.size (Nat.le_refl _)
  have hbound : ∀ i o, m.IsObject i o → places m₁.size i < m₁.size := fun i o ho =>
    Nat.lt_of_lt_of_le (htracks.place_lt whole.toWellFormed ho.1 (by rw [ho.2]; decide)) tracks.size_le
  rw [hlast] at hwhole hordered htracks
  refine ⟨places m₁.size, hwhole, hordered, htracks, fun t => (states t).1, places, ?_,
    congrArg Prod.fst hfirst, congrArg Prod.fst hlast, hplaces, rfl⟩
  exact
    { turns := fun t ht => sortTurn_eq (hturns t ht).1
      tracks := fun t ht => (hgood t ht).2.2
      once := fun i o ho => existsUnique_place (fun t ht => (hturns t ht).2) ho (hbound i o ho) }

end Model

end ObjectPack
