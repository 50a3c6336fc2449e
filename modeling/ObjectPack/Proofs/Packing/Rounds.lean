import ObjectPack.Proofs.Model.Solve
import ObjectPack.Proofs.Packing.Mirror
import ObjectPack.Proofs.Packing.Pending
import ObjectPack.Proofs.Packing.Unit

/-!
# How many rounds packing takes

A model gives packing as many rounds as it has rows and one more.  That is enough: what waits after a round stands
behind what has waited (`Packing.fillBlocks_rounds`), and every round packs a data unit of its own
(`Packing.packUnits_rounds`).  So whatever is packed in some number of rounds is packed in that many, and
models that mirror each other need not have as many rows as each other (`Model.roundsSuffice`).
-/

namespace ObjectPack

open Outcome

namespace Packing

variable {m m' : Model} {registry : Registry} {p p' q : Packer} {i n rounds rounds' : Nat} {row : Row}
  {e : Reference × Nat}

/-! ### Blocks -/

theorem referToBlock_putsOff (block : row.HasBlock) (h : referToBlock m p i = .ok p') :
    PutsOff p p' i row := by
  unfold referToBlock deferBlock at h
  simp only [bind_eq_ok, pure_eq_ok, Prod.exists, Prod.mk.injEq] at h
  obtain ⟨reference, p₁, ⟨_, _, _, _, _, _, _, rfl, rfl⟩, hslot⟩ := h
  obtain ⟨d, -, rfl⟩ := onDraft_eq_ok.mp hslot
  exact .of_block block rfl rfl

theorem writePresent_putsOff (hrow : m.row i = .ok row) (present : row.value = .present)
    (h : writePresent m p i = .ok p') : PutsOff p p' i row := by
  unfold writePresent at h
  simp only [hrow, bind_eq_ok, Except.ok.injEq, exists_eq_left'] at h
  have hcollection : ∀ {p₁ : Packer} {counts : List WriteStep}, row.kind = .array ∨ row.kind = .dictionary →
      (if row.countWord = 0 then p.onDraft (·.writeNull) else referToBlock m p i) = .ok p₁ →
      p₁.onDraft (·.performAll counts) = .ok p' → PutsOff p p' i row := by
    intro p₁ counts hkind hslot hcounts
    obtain ⟨d, -, rfl⟩ := onDraft_eq_ok.mp hcounts
    split at hslot
    · obtain ⟨d₁, -, rfl⟩ := onDraft_eq_ok.mp hslot
      exact .of_eq rfl rfl
    · rename_i hcount
      have hputs := referToBlock_putsOff ⟨present, Or.inr ⟨hkind, hcount⟩⟩ hslot
      exact ⟨hputs.blocks, hputs.units⟩
  cases hkind : row.kind <;> simp only [hkind, throw_ne_ok] at h
  case string =>
    simp only [bind_eq_ok, pure_eq_ok] at h
    obtain ⟨index, -, text, -, p₁, hslot, rfl⟩ := h
    obtain ⟨d, -, rfl⟩ := onDraft_eq_ok.mp hslot
    exact .of_eq rfl rfl
  case object => exact referToBlock_putsOff ⟨present, Or.inl hkind⟩ h
  case array =>
    obtain ⟨p₁, hslot, hcounts⟩ := ite_bind_eq_ok.mp h
    exact hcollection (Or.inl hkind) hslot hcounts
  case dictionary =>
    obtain ⟨p₁, hslot, hcounts⟩ := ite_bind_eq_ok.mp h
    exact hcollection (Or.inr hkind) hslot hcounts

/-- A row puts off its own block and its own data unit only. -/
theorem writeRow_putsOff (hrow : m.row i = .ok row) (h : writeRow m registry p i = .ok p') :
    PutsOff p p' i row := by
  obtain ⟨alignment, d₁, row', -, -, hrow', hcases⟩ := writeRow_cases h
  obtain rfl := Except.ok.inj (hrow.symm.trans hrow')
  rcases hcases with ⟨steps, d₂, -, -, -, rfl⟩ | ⟨hpresent, hwrite⟩
  · unfold Packer.behind
    split
    · rename_i signature hvalue
      unfold meet
      split
      · exact .of_eq rfl rfl
      · refine ⟨fun _ he => Or.inl he, fun j hj => ?_⟩
        exact (List.mem_append.mp hj).imp id fun hj => ⟨List.mem_singleton.mp hj, signature, hvalue⟩
    · exact .of_eq rfl rfl
  · have hputs := writePresent_putsOff hrow hpresent hwrite
    exact ⟨hputs.blocks, hputs.units⟩

/-- What is put off while a block is filled belongs to rows that the row of the block owns. -/
theorem blocks_of_fillBlock (h : fillBlock m registry p e = .ok p') : ∃ owner, m.row e.2 = .ok owner ∧
    ∀ e' ∈ p'.blocks, e' ∈ p.blocks ∨ owner.Owns e'.2 ∧ ∃ row, m.row e'.2 = .ok row ∧ row.HasBlock := by
  unfold fillBlock at h
  simp only [bind_eq_ok, lift_eq_ok] at h
  obtain ⟨p₁, hopening, span, hmembers, p₂, hrows, hclosing⟩ := h
  obtain ⟨d₁, -, rfl⟩ := onDraft_eq_ok.mp hopening
  obtain ⟨d₃, -, rfl⟩ := onDraft_eq_ok.mp hclosing
  obtain ⟨owner, howner, hspan⟩ := bind_eq_ok.mp hmembers
  refine ⟨owner, howner, ?_⟩
  have hfold : ∀ n start (p : Packer), (∀ k < n, owner.Owns (start + k)) →
      Span.foldFrom (writeRow m registry) n start p = .ok p₂ → ∀ e' ∈ p₂.blocks,
      e' ∈ p.blocks ∨ owner.Owns e'.2 ∧ ∃ row, m.row e'.2 = .ok row ∧ row.HasBlock := by
    intro n start p howns hp e' he'
    induction n generalizing start p with
    | zero =>
      cases hp
      exact Or.inl he'
    | succ n ih =>
      obtain ⟨p₁, hfirst, hrest⟩ := Span.foldFrom_succ_eq_ok.mp hp
      obtain ⟨_, _, row, -, -, hrow, -⟩ := writeRow_cases hfirst
      have hlater : ∀ k < n, owner.Owns (start + 1 + k) := fun k hk => by
        rw [Nat.add_right_comm]
        exact howns (k + 1) (Nat.succ_lt_succ hk)
      rcases ih (start + 1) p₁ hlater hrest with hold | hnew
      · refine ((writeRow_putsOff hrow hfirst).blocks e' hold).imp id ?_
        rintro ⟨hself, hblock⟩
        exact ⟨hself ▸ howns 0 (Nat.zero_lt_succ n), row, hself ▸ hrow, hblock⟩
      · exact Or.inr hnew
  exact hfold span.length span.start { p with draft := d₁ }
    (fun k hk => (Row.owns_iff hspan _).mpr ⟨k, hk, rfl⟩) hrows

/-- Whether a block that waits is that of a row from row `n` on which is no data unit. -/
def Deep (m : Model) (n : Nat) (e : Reference × Nat) : Prop :=
  n ≤ e.2 ∧ ∀ row, m.row e.2 = .ok row → row.kind ≠ .dataUnit

/-- What is put off in a round stands behind what has waited. -/
theorem deep_of_fillAll (ordered : m.Ordered) {queue : List (Reference × Nat)}
    (deep : ∀ e ∈ queue, Deep m n e) (deeper : ∀ e ∈ p.blocks, Deep m (n + 1) e)
    (h : queue.foldlM (fillBlock m registry) p = .ok p') : ∀ e ∈ p'.blocks, Deep m (n + 1) e := by
  induction queue generalizing p with
  | nil =>
    cases h
    exact deeper
  | cons e queue ih =>
    rw [List.foldlM_cons, bind_eq_ok] at h
    obtain ⟨p₁, hfirst, hrest⟩ := h
    refine ih (fun e he => deep e (List.mem_cons_of_mem _ he)) (fun e' he' => ?_) hrest
    obtain ⟨owner, howner, hblocks⟩ := blocks_of_fillBlock hfirst
    obtain ⟨hle, hkind⟩ := deep e List.mem_cons_self
    rcases hblocks e' he' with hold | ⟨howns, row, hrow, hblock⟩
    · exact deeper e' hold
    · refine ⟨?_, fun row' hrow' => ?_⟩
      · have hbelow := ordered.below e.2 owner e'.2 howner (hkind owner howner) howns
        omega
      · obtain rfl := Except.ok.inj (hrow.symm.trans hrow')
        rcases hblock.2 with hkind | ⟨hkind | hkind, -⟩ <;> rw [hkind] <;> decide

/-- What is filled in some number of rounds is filled in as many as there are rows left. -/
theorem fillBlocks_rounds (ordered : m.Ordered) (deep : ∀ e ∈ p.blocks, Deep m n e)
    (enough : m.size < n + rounds') (h : fillBlocks m registry rounds p = .ok q) :
    fillBlocks m registry rounds' p = .ok q := by
  replace h := fillRounds_of_fillBlocks h
  induction h generalizing n rounds' with
  | done hnone => exact fillBlocks_of_nil hnone rounds'
  | @round p p₁ q hsome hround _ ih =>
    have hdeeper := deep_of_fillAll ordered deep (fun e he => absurd he List.not_mem_nil) hround
    -- What is put off stands deeper in the table with each round, so rounds are left as long as rows are.
    obtain ⟨k, rfl⟩ : ∃ k, rounds' = k + 1 := by
      obtain ⟨e, queue, hqueue⟩ := List.exists_cons_of_ne_nil hsome
      rw [hqueue, List.foldlM_cons, bind_eq_ok] at hround
      obtain ⟨_, hfirst, -⟩ := hround
      obtain ⟨owner, howner, -⟩ := blocks_of_fillBlock hfirst
      have hlt := Model.lt_size_of_row howner
      have hle := (deep e (hqueue ▸ List.mem_cons_self)).1
      exact ⟨rounds' - 1, by omega⟩
    rw [fillBlocks_succ hsome]
    exact bind_eq_ok.mpr ⟨p₁, hround, ih hdeeper (by omega)⟩

/-! ### Data units -/

/-- Where no data unit is left, no more rounds are made. -/
theorem packUnits_of_none (none : p.units = []) : packUnits m registry rounds p = .ok p := by
  cases rounds with
  | zero => rfl
  | succ rounds =>
    unfold packUnits
    rw [none]

/-- Rounds may be made in two parts. -/
theorem packUnits_add (n rounds : Nat) (p : Packer) : packUnits m registry (n + rounds) p =
    packUnits m registry n p >>= packUnits m registry rounds := by
  induction n generalizing p with
  | zero =>
    rw [Nat.zero_add]
    rfl
  | succ n ih =>
    rw [Nat.succ_add]
    conv => lhs; unfold packUnits
    conv => rhs; lhs; unfold packUnits
    split
    · rename_i hnone
      exact (packUnits_of_none hnone).symm
    · rw [bind_assoc]
      exact bind_congr fun p₁ => ih p₁

/-- What is packed completely in some number of rounds is packed in more rounds than there are rows. -/
theorem packUnits_rounds (fits : ∀ i row, m.row i = .ok row → row.Fits)
    (objects : ∀ i row root, m.row i = .ok row → row.kind = .dataUnit → row.start = some root →
      m.OwnsBlock root) {platform : Platform} {encoding : PointerEncoding}
    (known : ∀ text ∈ m.texts.entries, text.reference.id < m.supply.next) {signature : Digest}
    (hrow : m.row i = .ok row) (value : row.value = .dataUnit signature) (enough : m.size < rounds')
    (h : packUnits m registry rounds ⟨.blank platform encoding m.supply, [i], [signature], [], []⟩ = .ok q)
    (done : q.units = []) :
    packUnits m registry rounds' ⟨.blank platform encoding m.supply, [i], [signature], [], []⟩ = .ok q := by
  rcases Nat.le_total rounds rounds' with hle | hle
  · obtain ⟨k, rfl⟩ := Nat.exists_eq_add_of_le hle
    exact packUnits_add rounds k _ ▸ bind_eq_ok.mpr ⟨q, h, packUnits_of_none done⟩
  · obtain ⟨k, rfl⟩ := Nat.exists_eq_add_of_le hle
    rw [packUnits_add, bind_eq_ok] at h
    obtain ⟨p₁, hfirst, hrest⟩ := h
    have hnone := (packUnits_finished fits objects known hrow value enough hfirst).1
    rw [packUnits_of_none hnone] at hrest
    rwa [← Except.ok.inj hrest]

end Packing

/-- Whatever rows correspond, whole models give packing rounds enough. -/
theorem Model.roundsSuffice {c : Matching} {m m' : Model} {top top' : Nat} (registry : Registry)
    (whole : m.Whole top) (whole' : m'.Whole top') (ordered : m'.Ordered)
    (blocks : ∀ i j, c.blocks i j → ∀ row, m'.row j = .ok row → row.kind ≠ .dataUnit)
    (platform : Platform) (encoding : PointerEncoding) :
    m.RoundsSuffice c registry m' (.blank platform encoding m.supply) (.blank platform encoding m'.supply) where
  blocks {p q} hpairs h := by
    refine Packing.fillBlocks_rounds (n := 0) ordered (fun e he => ?_) (by omega) h
    obtain ⟨i, hpair⟩ := hpairs e he
    exact ⟨Nat.zero_le _, blocks i e.2 hpair⟩
  units {i j r r' s q q'} hrow hvalue hrow' hvalue' h h' same := by
    have hnone := (Packing.packUnits_finished whole.fits whole.objects whole.texts hrow hvalue
      (Nat.lt_succ_self _) h).1
    rw [hnone, List.length_nil] at same
    exact Packing.packUnits_rounds whole'.fits whole'.objects whole'.texts hrow' hvalue' (Nat.lt_succ_self _) h'
      (List.eq_nil_of_length_eq_zero same)

end ObjectPack
