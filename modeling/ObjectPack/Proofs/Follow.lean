import ObjectPack.Proofs.Model.Layout

/-!
# Computations side by side

Two runs of the same steps on different data are compared step by step.  One computation follows
another if it succeeds wherever the other does, with a result that is related to the other's
(`Outcome.Follows`).  A sequence follows another one if each of its parts does what the part of the
other does (`Outcome.Follows.bind`), and so do folds.  Two computations that follow each other succeed together
(`Outcome.Matches`).
-/

namespace ObjectPack.Outcome

variable {ε ε' α α' β β' γ : Type} {R : α → β → Prop} {S : α' → β' → Prop}

/-- Whether `y` succeeds where `x` does, with a related result. -/
def Follows (R : α → β → Prop) (x : Except ε α) (y : Except ε' β) : Prop :=
  ∀ a, x = .ok a → ∃ b, y = .ok b ∧ R a b

theorem Follows.ok {a : α} {b : β} (h : R a b) :
    Follows R (.ok a : Except ε α) (.ok b : Except ε' β) := by
  rintro _ ⟨⟩
  exact ⟨b, rfl, h⟩

/-- What fails is followed by everything. -/
theorem Follows.error (e : ε) (y : Except ε' β) : Follows R (.error e : Except ε α) y := by
  intro a h
  cases h

/-- A computation follows itself. -/
theorem Follows.rfl {x : Except ε α} : Follows Eq x x := fun a h => ⟨a, h, Eq.refl a⟩

theorem Follows.mono {x : Except ε α} {y : Except ε' β} {R' : α → β → Prop} (h : Follows R x y)
    (weaker : ∀ a b, R a b → R' a b) : Follows R' x y := by
  intro a ha
  obtain ⟨b, hb, hab⟩ := h a ha
  exact ⟨b, hb, weaker a b hab⟩

/-- The results that are related are those of the computations. -/
theorem Follows.results {x : Except ε α} {y : Except ε' β} (h : Follows R x y) :
    Follows (fun a b => R a b ∧ x = .ok a ∧ y = .ok b) x y := by
  intro a ha
  obtain ⟨b, hb, hab⟩ := h a ha
  exact ⟨b, hb, hab, ha, hb⟩

/-- A sequence follows another one if both of its parts do. -/
theorem Follows.bind {x : Except ε α} {y : Except ε' β} {f : α → Except ε α'}
    {g : β → Except ε' β'} (first : Follows R x y)
    (rest : ∀ a b, R a b → Follows S (f a) (g b)) : Follows S (x >>= f) (y >>= g) := by
  intro a' h
  obtain ⟨a, ha, h⟩ := bind_eq_ok.mp h
  obtain ⟨b, hb, hab⟩ := first a ha
  obtain ⟨b', hb', hab'⟩ := rest a b hab a' h
  exact ⟨b', bind_eq_ok.mpr ⟨b, hb, hb'⟩, hab'⟩

/-- A sequence follows another one with the same first part if its second part does. -/
theorem Follows.bind_same {x : Except ε γ} {f : γ → Except ε α'} {g : γ → Except ε β'}
    (rest : ∀ a, x = .ok a → Follows S (f a) (g a)) : Follows S (x >>= f) (x >>= g) := by
  intro a' h
  obtain ⟨a, ha, h⟩ := bind_eq_ok.mp h
  obtain ⟨b', hb', hab'⟩ := rest a ha a' h
  exact ⟨b', bind_eq_ok.mpr ⟨a, ha, hb'⟩, hab'⟩

theorem Follows.map {x : Except ε α} {y : Except ε' β} {f : α → α'} {g : β → β'} (h : Follows R x y)
    (related : ∀ a b, R a b → S (f a) (g b)) : Follows S (x.map f) (y.map g) := by
  intro a' ha'
  obtain ⟨a, ha, rfl⟩ := map_eq_ok.mp ha'
  obtain ⟨b, hb, hab⟩ := h a ha
  exact ⟨g b, map_eq_ok.mpr ⟨b, hb, Eq.refl _⟩, related a b hab⟩

/-- Computations that can only break contracts follow each other among others too. -/
theorem Follows.lift {x : Except Fault α} {y : Except Fault β} (h : Follows R x y) :
    Follows R (liftM x : Except (Failure ε) α) (liftM y : Except (Failure ε') β) := by
  intro a ha
  obtain ⟨b, hb, hab⟩ := h a (lift_eq_ok.mp ha)
  exact ⟨b, lift_eq_ok.mpr hb, hab⟩

/-- How errors are seen makes no difference. -/
theorem Follows.mapError {δ δ' : Type} {x : Except ε α} {y : Except ε' β} (h : Follows R x y) (f : ε → δ)
    (g : ε' → δ') : Follows R (x.mapError f) (y.mapError g) := by
  intro a ha
  obtain ⟨b, hb, hab⟩ := h a (mapError_eq_ok.mp ha)
  exact ⟨b, mapError_eq_ok.mpr hb, hab⟩

/-- A refusal under one condition follows one under another condition. -/
theorem Follows.refuse {p q : Prop} [Decidable p] [Decidable q] {e : ε} {e' : ε'}
    {next : γ → Except ε α} {next' : γ → Except ε' β} {x : Except ε α} {y : Except ε' β} (iff : p ↔ q)
    (rest : ¬ p → Follows R x y) :
    Follows R (if p then throw e >>= next else x) (if q then throw e' >>= next' else y) := by
  intro a ha
  obtain ⟨hp, ha⟩ := refuse_if_eq_ok.mp ha
  obtain ⟨b, hb, hab⟩ := rest hp a ha
  exact ⟨b, refuse_if_eq_ok.mpr ⟨fun hq => hp (iff.mpr hq), hb⟩, hab⟩

/-! ### Loops -/

/-- Folds follow each other if their steps do. -/
theorem Follows.foldlM {f : α → γ → Except ε α} {g : β → γ → Except ε' β}
    (step : ∀ a b c, R a b → Follows R (f a c) (g b c)) (l : List γ) {a : α} {b : β} (start : R a b) :
    Follows R (l.foldlM f a) (l.foldlM g b) := by
  induction l generalizing a b with
  | nil => exact .ok start
  | cons c l ih =>
    rw [List.foldlM_cons, List.foldlM_cons]
    exact (step a b c start).bind fun a₁ b₁ h₁ => ih h₁

/-- Folds of related lists follow each other if their steps do. -/
theorem Follows.foldlM_pairs {γ' : Type} {P : γ → γ' → Prop} {f : α → γ → Except ε α} {g : β → γ' → Except ε' β}
    (step : ∀ a b c c', P c c' → R a b → Follows R (f a c) (g b c')) {l : List γ} {l' : List γ'}
    (pairs : List.Forall₂ P l l') {a : α} {b : β} (start : R a b) : Follows R (l.foldlM f a) (l'.foldlM g b) := by
  induction pairs generalizing a b with
  | nil => exact .ok start
  | cons hfirst _ ih =>
    rw [List.foldlM_cons, List.foldlM_cons]
    exact (step _ _ _ _ hfirst start).bind fun a₁ b₁ h₁ => ih h₁

/-- Collected results are related if those of every step are. -/
theorem Follows.mapM_pairs {δ : Type} {P : α → β → Prop} {Q : γ → δ → Prop} {f : α → Except ε γ}
    {g : β → Except ε' δ} {l : List α} {l' : List β} (pairs : List.Forall₂ P l l')
    (step : ∀ a b, P a b → Follows Q (f a) (g b)) : Follows (List.Forall₂ Q) (l.mapM f) (l'.mapM g) := by
  induction pairs with
  | nil => exact .ok .nil
  | cons hfirst _ ih =>
    rw [List.mapM_cons, List.mapM_cons]
    exact (step _ _ hfirst).bind fun c d hc => ih.bind fun cs ds hcs => .ok (.cons hc hcs)

/-- Collecting gives the same if every step does. -/
theorem Follows.mapM {P : α → β → Prop} {f : α → Except ε γ} {g : β → Except ε' γ} {l : List α}
    {l' : List β} (pairs : List.Forall₂ P l l') (step : ∀ a b, P a b → Follows Eq (f a) (g b)) :
    Follows Eq (l.mapM f) (l'.mapM g) := by
  have hpairs := Follows.mapM_pairs pairs step
  rwa [List.forall₂_eq_eq_eq] at hpairs

/-- Folds over two ranges of one length follow each other if their steps do. -/
theorem Follows.foldFrom_pairs {f : α → Nat → Except ε α} {g : β → Nat → Except ε' β} {length start start' : Nat}
    (step : ∀ k < length, ∀ a b, R a b → Follows R (f a (start + k)) (g b (start' + k))) {a : α} {b : β}
    (h : R a b) : Follows R (Span.foldFrom f length start a) (Span.foldFrom g length start' b) := by
  induction length generalizing start start' a b with
  | zero => exact .ok h
  | succ length ih =>
    intro a' ha'
    obtain ⟨a₁, hfirst, hrest⟩ := Span.foldFrom_succ_eq_ok.mp ha'
    obtain ⟨b₁, hb₁, h₁⟩ := step 0 (Nat.zero_lt_succ _) a b h a₁ hfirst
    have hlater : ∀ k < length, ∀ a b, R a b → Follows R (f a (start + 1 + k)) (g b (start' + 1 + k)) := by
      intro k hk a b hab
      rw [Nat.add_assoc, Nat.add_assoc, Nat.add_comm 1 k]
      exact step (k + 1) (Nat.succ_lt_succ hk) a b hab
    obtain ⟨b', hb', hab'⟩ := ih hlater h₁ a' hrest
    exact ⟨b', Span.foldFrom_succ_eq_ok.mpr ⟨b₁, hb₁, hb'⟩, hab'⟩

/-! ### Both ways -/

/-- Whether two computations succeed together, with related results. -/
structure Matches (R : α → β → Prop) (x : Except ε α) (y : Except ε' β) : Prop where
  there : Follows R x y
  back : Follows (fun b a => R a b) y x

namespace Matches

theorem ok {a : α} {b : β} (h : R a b) : Matches R (.ok a : Except ε α) (.ok b : Except ε' β) :=
  ⟨.ok h, .ok h⟩

theorem error (e : ε) (e' : ε') : Matches R (.error e : Except ε α) (.error e' : Except ε' β) :=
  ⟨.error _ _, .error _ _⟩

theorem bind {x : Except ε α} {y : Except ε' β} {f : α → Except ε α'} {g : β → Except ε' β'}
    (first : Matches R x y) (rest : ∀ a b, R a b → Matches S (f a) (g b)) :
    Matches S (x >>= f) (y >>= g) :=
  ⟨first.there.bind fun a b h => (rest a b h).there, first.back.bind fun b a h => (rest a b h).back⟩

theorem bind_same {x : Except ε γ} {f : γ → Except ε α'} {g : γ → Except ε β'}
    (rest : ∀ a, x = .ok a → Matches S (f a) (g a)) : Matches S (x >>= f) (x >>= g) :=
  ⟨.bind_same fun a h => (rest a h).there, .bind_same fun a h => (rest a h).back⟩

theorem foldlM {f : α → γ → Except ε α} {g : β → γ → Except ε' β}
    (step : ∀ a b c, R a b → Matches R (f a c) (g b c)) (l : List γ) {a : α} {b : β} (start : R a b) :
    Matches R (l.foldlM f a) (l.foldlM g b) :=
  ⟨.foldlM (fun a b c h => (step a b c h).there) l start,
    .foldlM (fun b a c h => (step a b c h).back) l start⟩

end Matches

end ObjectPack.Outcome
