import ObjectPack.Proofs.Draft.Rename
import ObjectPack.Proofs.Sorting
import ObjectPack.TextPool

/-!
# Text pools with other names

The references of a pool of texts come from the same supply as those of drafts.  Texts are written in the
order of their checksums, whatever they are called: two pools that write the same texts in the same order
write them into renamed drafts alike (`TextPool.fillBlock_counterparts`), and a pool whose references have been
renamed does (`TextPool.fillBlock_renamed`).
-/

namespace ObjectPack.TextPool

open Outcome

variable {f : Reference → Reference} {t : Nat} {d d' : Draft}

/-- A pool whose texts bear renamed references. -/
def rename (f : Reference → Reference) (p : TextPool) : TextPool :=
  ⟨p.entries.map fun entry => { entry with reference := f entry.reference }⟩

theorem entry_rename (f : Reference → Reference) (p : TextPool) (index : Nat) :
    (p.rename f).entry index
      = (p.entry index).map fun entry => { entry with reference := f entry.reference } := by
  unfold entry rename
  rw [List.getElem?_map]
  cases p.entries[index]? <;> rfl

theorem entry_follows (f : Reference → Reference) (p : TextPool) (index : Nat) :
    Follows (fun entry renamed => renamed = { entry with reference := f entry.reference }) (p.entry index)
      ((p.rename f).entry index) := by
  intro entry hfound
  rw [entry_rename, hfound]
  exact ⟨_, rfl, rfl⟩

theorem find?_rename (f : Reference → Reference) (p : TextPool) (text : String) :
    (p.rename f).find? text = p.find? text := List.findIdx?_map ..

/-- Adding a text takes the renamed reference. -/
theorem add_rename (p : TextPool) {s : Supply} (fresh : f ⟨s.next⟩ = ⟨s.next + t⟩) (text : String) :
    (p.rename f).add ⟨s.next + t⟩ text
      = ((p.add s text).1, (p.add s text).2.1.rename f, ⟨(p.add s text).2.2.next + t⟩) := by
  unfold add
  rw [find?_rename]
  split
  · rfl
  · simp only [Supply.take, size, rename, List.length_map, List.map_append, List.map_cons, List.map_nil,
      fresh, Nat.add_right_comm]

/-- The supply only moves forward. -/
theorem le_add (p : TextPool) (s : Supply) (text : String) : s.next ≤ (p.add s text).2.2.next := by
  unfold add
  split
  · exact Nat.le_refl _
  · exact Nat.le_succ _

/-- In which order texts are written does not depend on their references. -/
theorem writingOrder_rename (f : Reference → Reference) (p : TextPool) (indices : List Nat) :
    (p.rename f).writingOrder indices = p.writingOrder indices := by
  have hkey : (fun index => do
      let entry ← (p.rename f).entry index
      return (entry.checksum.toNat, index) : Nat → Except Fault (Nat × Nat)) = fun index => do
        let entry ← p.entry index
        return (entry.checksum.toNat, index) := by
    funext index
    rw [entry_rename]
    cases p.entry index <;> rfl
  unfold writingOrder
  rw [hkey]

/-! ### Texts of two pools -/

/-- Whether two indices lead to the same text in two pools, under renamed references. -/
def Counterparts (f : Reference → Reference) (p p' : TextPool) (i j : Nat) : Prop :=
  Follows (fun entry renamed => renamed = { entry with reference := f entry.reference }) (p.entry i) (p'.entry j)

variable {p p' : TextPool} {i j : Nat}

theorem Counterparts.writeEntry (pair : Counterparts f p p' i j) (h : Draft.Renamed f t d d') :
    Follows (Draft.Renamed f t) (p.writeEntry d i) (p'.writeEntry d' j) := by
  refine pair.bind ?_
  rintro entry _ rfl
  exact (h.mark entry.reference).bind fun _ _ h => (h.append _).bind fun _ _ h => h.write _

/-- The texts of one pool are written as those of another one if they are written in the same order. -/
theorem fillBlock_counterparts (h : Draft.Renamed f t d d') (block : Reference) {indices indices' : List Nat}
    (order : Follows (List.Forall₂ (Counterparts f p p')) (p.writingOrder indices) (p'.writingOrder indices')) :
    Follows (Draft.Renamed f t) (p.fillBlock d block indices) (p'.fillBlock d' (f block) indices') := by
  unfold fillBlock
  refine order.bind fun order order' pairs => ?_
  refine (h.openBlock block).bind fun _ _ h => ?_
  exact (Follows.foldlM_pairs (fun _ _ _ _ pair h => pair.writeEntry h) pairs h).bind fun _ _ h => h.closeBlock

/-- Texts of two pools are written in the same order if their checksums tell them apart. -/
theorem writingOrder_follows {P : Nat → Nat → Prop} {indices indices' : List Nat}
    (pairs : List.Forall₂ P indices indices')
    (checksum : ∀ i j, P i j → Follows (fun t t' => t'.checksum = t.checksum) (p.entry i) (p'.entry j))
    (same : ∀ i j i' j', P i j → P i' j' → (i = i' ↔ j = j'))
    (apart : ∀ i i' t t', p.entry i = .ok t → p.entry i' = .ok t' → t.checksum = t'.checksum → i = i') :
    Follows (List.Forall₂ P) (p.writingOrder indices) (p'.writingOrder indices') := by
  cases pairs with
  | nil => exact .ok .nil
  | cons hfirst hrest =>
    cases hrest with
    | nil => exact .ok (.cons hfirst .nil)
    | cons hsecond hrest =>
      unfold writingOrder
      refine Follows.bind (R := List.Forall₂ fun key key' => P key.2 key'.2 ∧ key'.1 = key.1 ∧
        ∃ t, p.entry key.2 = .ok t ∧ key.1 = t.checksum.toNat)
        (.mapM_pairs (.cons hfirst (.cons hsecond hrest)) fun i j hpair => ?_) fun keys keys' hkeys => .ok ?_
      · refine (checksum i j hpair).results.bind ?_
        rintro t t' ⟨hsame, ht, -⟩
        exact .ok ⟨hpair, congrArg UInt32.toNat hsame, t, ht, rfl⟩
      · refine Sorting.dropRepeats_related same ?_
        rw [List.forall₂_map_left_iff, List.forall₂_map_right_iff]
        refine (Sorting.sortBy_related ?_ hkeys).imp fun _ _ hkey => hkey.1
        rintro ⟨_, i⟩ ⟨c, j⟩ ⟨_, i'⟩ ⟨c', j'⟩ ⟨hpair, rfl, t, ht, hc⟩ ⟨hpair', rfl, t', ht', hc'⟩
        -- Keys of one checksum are equal, so how the indices compare does not matter.
        by_cases hcc : c = c'
        · have hii : i = i' := apart i i' t t' ht ht' (UInt32.toNat.inj (hc.symm.trans (hcc.trans hc')))
          have hjj : j = j' := (same _ _ _ _ hpair hpair').mp hii
          rw [Bool.eq_iff_iff, Sorting.lexLe_iff, Sorting.lexLe_iff]
          simp only [hcc, hii, hjj, Nat.le_refl]
        · rw [Bool.eq_iff_iff, Sorting.lexLe_iff, Sorting.lexLe_iff]
          simp only [hcc, false_and]

/-- The texts of a renamed pool are written into a renamed draft. -/
theorem fillBlock_renamed (h : Draft.Renamed f t d d') (p : TextPool) (block : Reference) (indices : List Nat) :
    Follows (Draft.Renamed f t) (p.fillBlock d block indices) ((p.rename f).fillBlock d' (f block) indices) := by
  refine fillBlock_counterparts h block ?_
  rw [writingOrder_rename]
  exact fun order horder => ⟨order, horder, List.forall₂_same.mpr fun i _ => p.entry_follows f i⟩

end ObjectPack.TextPool
