import ObjectPack.Proofs.Packing.Pool
import ObjectPack.Proofs.Walk.Confined

/-!
# Pools of the same texts

Two models may have pooled the same texts in different orders.  As references are taken one after another, both
have taken the same ones, and only which text has which of them differs (`TextPool.transfer`).  Where checksums
tell texts apart, the order in which texts are written does not show in which order they have been pooled
(`Model.TextsFrom.writingOrder`).
-/

namespace ObjectPack

open Outcome

namespace TextPool

/-- Whether two pools have one text at two indices. -/
def SameText (p p' : TextPool) (i j : Nat) : Prop :=
  ∃ t t', p.entries[i]? = some t ∧ p'.entries[j]? = some t' ∧ t'.text = t.text

/-- The reference that a text has in another pool; references of no text stay as they are. -/
def transfer (p p' : TextPool) (r : Reference) : Reference :=
  match p.entries.find? (·.reference = r) with
  | none => r
  | some t => ((p'.entries.find? (·.text = t.text)).map (·.reference)).getD r

theorem transfer_of_none {p p' : TextPool} {r : Reference} (none : ¬ ∃ t ∈ p.entries, t.reference = r) :
    p.transfer p' r = r := by
  unfold transfer
  rw [List.find?_eq_none.mpr fun t ht hr => none ⟨t, ht, of_decide_eq_true hr⟩]

/-- Where no two elements have one key, an element is found by its key. -/
theorem find?_key {α κ : Type} [DecidableEq κ] {key : α → κ} {l : List α} {a : α} {k : κ}
    (distinct : (l.map key).Nodup) (mem : a ∈ l) (is : key a = k) : l.find? (key · = k) = some a := by
  have hsome : (l.find? (key · = k)).isSome := List.find?_isSome.mpr ⟨a, mem, decide_eq_true is⟩
  obtain ⟨b, hb⟩ := Option.isSome_iff_exists.mp hsome
  have hfound := List.find?_some hb
  have hkey : key b = k := of_decide_eq_true hfound
  rw [hb, List.inj_on_of_nodup_map distinct (List.mem_of_find?_eq_some hb) mem (hkey.trans is.symm)]

end TextPool

namespace Model.TextsFrom

variable {first : Nat} {m m' : Model} {t t' : PooledText} {i j i' j' : Nat} {r : Reference}

theorem eq_of_reference (h : m.TextsFrom first) (ht : t ∈ m.texts.entries) (ht' : t' ∈ m.texts.entries)
    (same : t.reference = t'.reference) : t = t' := List.inj_on_of_nodup_map h.nodup ht ht' same

theorem eq_of_text (h : m.TextsFrom first) (ht : t ∈ m.texts.entries) (ht' : t' ∈ m.texts.entries)
    (same : t.text = t'.text) : t = t' := List.inj_on_of_nodup_map h.once ht ht' same

/-- A text is at one index. -/
theorem index_eq (h : m.TextsFrom first) (hi : m.texts.entries[i]? = some t) (hj : m.texts.entries[j]? = some t')
    (same : t.text = t'.text) : i = j := by
  obtain rfl := h.eq_of_text (List.mem_of_getElem? hi) (List.mem_of_getElem? hj) same
  have hreference := (h.reference i t hi).symm.trans (h.reference j t hj)
  exact Nat.add_left_cancel (congrArg Reference.id hreference)

/-- The references of texts are those that have been taken. -/
theorem exists_reference (h : m.TextsFrom first) :
    (∃ t ∈ m.texts.entries, t.reference = r) ↔ first ≤ r.id ∧ r.id < m.supply.next := by
  rw [h.next]
  constructor
  · rintro ⟨t, ht, rfl⟩
    obtain ⟨i, hi⟩ := List.getElem?_of_mem ht
    rw [h.reference i t hi]
    exact ⟨Nat.le_add_right _ _, Nat.add_lt_add_left (List.getElem?_eq_some_iff.mp hi).1 first⟩
  · rintro ⟨hle, hlt⟩
    obtain ⟨i, hi⟩ := Nat.exists_eq_add_of_le hle
    have hget := List.getElem?_eq_getElem (show i < m.texts.entries.length by unfold TextPool.size at hlt; omega)
    refine ⟨_, List.mem_of_getElem? hget, ?_⟩
    rw [h.reference i _ hget, ← hi]

variable (h : m.TextsFrom first) (h' : m'.TextsFrom first) (same : ∀ text, m.Pools text ↔ m'.Pools text)
include h h'

theorem transfer_eq (ht : t ∈ m.texts.entries) (ht' : t' ∈ m'.texts.entries) (text : t'.text = t.text) :
    m.texts.transfer m'.texts t.reference = t'.reference := by
  unfold TextPool.transfer
  have hfind : m.texts.entries.find? (·.reference = t.reference) = some t := TextPool.find?_key h.nodup ht rfl
  have hfind' : m'.texts.entries.find? (·.text = t.text) = some t' := TextPool.find?_key h'.once ht' text
  rw [hfind]
  dsimp only
  rw [hfind']
  rfl

/-- Texts that are equal differ in their references only. -/
theorem counterparts (text : TextPool.SameText m.texts m'.texts i j) :
    TextPool.Counterparts (m.texts.transfer m'.texts) m.texts m'.texts i j := by
  obtain ⟨t, t', ht, ht', htext⟩ := text
  intro entry hentry
  obtain rfl := Option.some.inj (ht.symm.trans (indexed_eq_ok.mp hentry))
  refine ⟨t', indexed_eq_ok.mpr ht', ?_⟩
  dsimp only
  rw [h.transfer_eq h' (List.mem_of_getElem? ht) (List.mem_of_getElem? ht') htext, ← htext]

/-- Texts are written in the order of their checksums, in whichever order they have been pooled. -/
theorem writingOrder (apart : ∀ t ∈ m.texts.entries, ∀ t' ∈ m.texts.entries, t.checksum = t'.checksum →
      t.text = t'.text) {l l' : List Nat} (pairs : List.Forall₂ (TextPool.SameText m.texts m'.texts) l l') :
    Follows (List.Forall₂ (TextPool.SameText m.texts m'.texts)) (m.texts.writingOrder l) (m'.texts.writingOrder l') := by
  refine TextPool.writingOrder_follows pairs (fun i j hpair => ?_) (fun i j i' j' hpair hpair' => ?_)
    fun i i' t t' ht ht' hsame => ?_
  · refine (h.counterparts h' hpair).mono fun t t' hrenamed => ?_
    rw [hrenamed]
    rfl
  · obtain ⟨t, u, ht, hu, htext⟩ := hpair
    obtain ⟨t', u', ht', hu', htext'⟩ := hpair'
    constructor
    · rintro rfl
      obtain rfl := Option.some.inj (ht.symm.trans ht')
      exact h'.index_eq hu hu' (htext.trans htext'.symm)
    · rintro rfl
      obtain rfl := Option.some.inj (hu.symm.trans hu')
      exact h.index_eq ht ht' (htext.symm.trans htext')
  · have hi := indexed_eq_ok.mp ht
    have hj := indexed_eq_ok.mp ht'
    exact h.index_eq hi hj (apart t (List.mem_of_getElem? hi) t' (List.mem_of_getElem? hj) hsame)

include same

/-- Both models have taken as many references. -/
theorem supply_eq : m'.supply = m.supply := by
  have hperm : (m'.texts.entries.map (·.text)).Perm (m.texts.entries.map (·.text)) := by
    rw [List.perm_ext_iff_of_nodup h'.once h.once]
    intro text
    rw [List.mem_map, List.mem_map]
    exact (same text).symm
  have hlength := hperm.length_eq
  rw [List.length_map, List.length_map] at hlength
  have hnext : m'.supply.next = m.supply.next := by
    rw [h.next, h'.next, TextPool.size, hlength]
    rfl
  cases hm : m.supply
  cases hm' : m'.supply
  rw [hm, hm'] at hnext
  exact congrArg Supply.mk hnext

/-- A reference of a text is renamed to one that some text has. -/
theorem exists_transfer (ht : t ∈ m.texts.entries) : ∃ t' ∈ m'.texts.entries, t'.text = t.text ∧
    m.texts.transfer m'.texts t.reference = t'.reference ∧ ∃ u ∈ m.texts.entries, u.reference = t'.reference := by
  obtain ⟨t', ht', htext⟩ := (same t.text).mp ⟨t, ht, rfl⟩
  refine ⟨t', ht', htext, h.transfer_eq h' ht ht' htext, ?_⟩
  rw [h.exists_reference, ← h.supply_eq h' same, ← h'.exists_reference]
  exact ⟨t', ht', rfl⟩

/-- Different references are renamed to different ones. -/
theorem transfer_injective : Function.Injective (m.texts.transfer m'.texts) := by
  intro r s hrs
  by_cases hr : ∃ t ∈ m.texts.entries, t.reference = r <;> by_cases hs : ∃ t ∈ m.texts.entries, t.reference = s
  · obtain ⟨t, ht, rfl⟩ := hr
    obtain ⟨u, hu, rfl⟩ := hs
    obtain ⟨t', ht', htext, htransfer, -⟩ := h.exists_transfer h' same ht
    obtain ⟨u', hu', hutext, hutransfer, -⟩ := h.exists_transfer h' same hu
    obtain rfl := h'.eq_of_reference ht' hu' (htransfer.symm.trans (hrs.trans hutransfer))
    rw [h.eq_of_text ht hu (htext.symm.trans hutext)]
  · obtain ⟨t, ht, rfl⟩ := hr
    obtain ⟨t', -, -, htransfer, hused⟩ := h.exists_transfer h' same ht
    rw [TextPool.transfer_of_none hs] at hrs
    exact absurd (hrs ▸ htransfer ▸ hused) hs
  · obtain ⟨u, hu, rfl⟩ := hs
    obtain ⟨u', -, -, htransfer, hused⟩ := h.exists_transfer h' same hu
    rw [TextPool.transfer_of_none hr] at hrs
    exact absurd (hrs ▸ htransfer ▸ hused) hr
  · rwa [TextPool.transfer_of_none hr, TextPool.transfer_of_none hs] at hrs

/-- Nothing of a blank draft tells the one model from the other. -/
theorem blank_renamed (platform : Platform) (encoding : PointerEncoding) :
    Draft.Renamed (m.texts.transfer m'.texts) 0 (.blank platform encoding m.supply)
      (.blank platform encoding m'.supply) where
  eq := by
    rw [h.supply_eq h' same]
    rfl
  length := rfl
  bodies _ hblock := absurd hblock List.not_mem_nil
  injective := h.transfer_injective h' same
  fresh n hn := by
    refine TextPool.transfer_of_none fun hused => ?_
    exact absurd ((h.exists_reference.mp hused).2) (Nat.not_lt.mpr hn)
  cursor _ _ _ hactive := by cases hactive

end Model.TextsFrom

end ObjectPack
