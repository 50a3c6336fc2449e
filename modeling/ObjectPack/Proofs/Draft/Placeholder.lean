import ObjectPack.Draft.Section
import ObjectPack.Proofs.Draft.Extend

/-!
# Slots before linking

Until a draft is linked, the slot of a site holds the number of the reference that the site refers to
(`Reachable.numbered`).  So the bytes of a slot and the target of its site say the same, and blocks whose
targets agree agree in their slots too.
-/

namespace ObjectPack

namespace Draft

open Relation

/-- Whether every slot holds the number of the reference that its site refers to. -/
def Numbered (d : Draft) : Prop :=
  ∀ block ∈ d.blocks, ∀ body ∈ block.body, ∀ site ∈ body.sites,
    Bytes.HasAt d.buffer (body.start + site.offset) (Section.placeholder d.endian site.target)

variable {d d' : Draft} {allowed : PointerEncoding → Prop}

theorem Move.numbered (hmove : Move allowed d d') (valid : d.Valid) (h : d.Numbered) : d'.Numbered := by
  intro b hb c hc site hsite
  rw [Moves.endian_eq (.single hmove)]
  rcases hmove.site_cases hb hc hsite with
    ⟨block, hblock, body, hbody, hstart, hold⟩ | ⟨index, block, body, hactive, hstart, hoffset, -, hbuffer⟩
  · rw [hstart]
    exact (h block hblock body hbody site hold).of_grown hmove.extends.buffer
  · -- The new slot is what has been appended to the buffer.
    rw [hstart, hoffset, (valid.cursor index block body hactive).1, hbuffer,
      ← List.append_nil (d.placeholder site.target)]
    exact Bytes.hasAt_append _ _ _

theorem Moves.numbered (hmoves : Moves allowed d d') (valid : d.Valid) (h : d.Numbered) :
    d'.Numbered := by
  induction hmoves with
  | refl => exact h
  | tail hfirst hmove ih => exact hmove.numbered (valid.moves hfirst) ih

theorem blank_numbered (platform : Platform) (encoding : PointerEncoding) (supply : Supply) :
    (blank platform encoding supply).Numbered :=
  fun _ hblock => absurd hblock List.not_mem_nil

theorem Reachable.numbered (h : d.Reachable) : d.Numbered := by
  obtain ⟨platform, encoding, supply, ops, run⟩ := h
  exact run.moves.numbered (blank_valid platform encoding supply) (blank_numbered platform encoding supply)

end Draft

end ObjectPack
