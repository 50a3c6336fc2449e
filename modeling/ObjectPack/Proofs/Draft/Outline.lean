import ObjectPack.Proofs.Draft.Register

/-!
# What a draft leaves open

Whether a draft can be finished is a matter of which blocks wait to be opened (`Draft.unopened`), of what its
sites refer to (`Draft.RefersIn`) and of what is marked (`Draft.MarkedIn`).  Contents do not matter, so most
operations change none of this; what the others add is listed here (`Draft.Adds`).
-/

namespace ObjectPack

open Outcome

/-- A list that is taken apart at one of its elements, which may be replaced. -/
theorem exists_split_of_getElem? {α : Type} {l : List α} {i : Nat} {a : α} (h : l[i]? = some a) :
    ∃ before after, l = before ++ a :: after ∧ ∀ b, l.set i b = before ++ b :: after := by
  obtain ⟨hlt, rfl⟩ := List.getElem?_eq_some_iff.mp h
  refine ⟨l.take i, l.drop (i + 1), ?_, fun b => ?_⟩
  · rw [← List.drop_eq_getElem_cons hlt, List.take_append_drop]
  · rw [List.set_eq_take_append_cons_drop, if_pos hlt]

namespace Draft

variable {d d' d'' : Draft} {index : Nat} {block : Block} {body body' : Body} {reference : Reference}
  {targets targets' marks marks' : List Reference} {unit : Nat}

/-! ### Blocks that wait -/

/-- The references of the blocks that have not been opened, in the order of their registration. -/
def unopened (d : Draft) : List Reference := (d.blocks.filter (·.body.isNone)).map (·.reference)

theorem mem_unopened : reference ∈ d.unopened ↔
    ∃ block ∈ d.blocks, block.body = none ∧ block.reference = reference := by
  simp [unopened, and_assoc]

theorem Valid.unopened_nodup (valid : d.Valid) : d.unopened.Nodup :=
  valid.referencesOnce.sublist (List.filter_sublist.map _)

theorem unopened_eq (h : d'.blocks = d.blocks) : d'.unopened = d.unopened := by
  rw [unopened, h]
  rfl

/-- Writing into a block opens none. -/
theorem setBody_unopened (active : d.active? = some (index, block, body)) (body' : Body) :
    (d.setBody index body').unopened = d.unopened := by
  obtain ⟨before, after, hblocks, hset⟩ := exists_split_of_getElem? (active?_eq_some.mp active).2.1
  have hbody := (active?_eq_some.mp active).2.2
  rw [unopened, unopened, setBody_blocks active, hset, hblocks]
  simp [List.filter_append, hbody]

theorem Appends.unopened (h : Appends d d') : d'.unopened = d.unopened := by
  induction h with
  | refl => rfl
  | tail _ happend ih =>
    obtain ⟨b, happend⟩ := happend
    obtain ⟨index, block, body, hactive, -, rfl⟩ := append_eq_ok.mp happend
    exact (setBody_unopened hactive _).trans ih

/-- A block is registered under a reference that has not been taken before. -/
theorem newBlock_reference {alignment : Nat} {limit : Option Nat} {result : Reference × Draft}
    (h : d.newBlock alignment limit = .ok result) : result.1.id = d.supply.next := by
  unfold newBlock at h
  simp only [refuse_if_eq_ok, pure_eq_ok] at h
  obtain ⟨-, rfl⟩ := h
  rfl

theorem newBlock_currentBlock {alignment : Nat} {limit : Option Nat} {result : Reference × Draft}
    (h : d.newBlock alignment limit = .ok result) : result.2.currentBlock = d.currentBlock := by
  unfold newBlock at h
  simp only [refuse_if_eq_ok, pure_eq_ok] at h
  obtain ⟨-, rfl⟩ := h
  rfl

theorem newBlock_unopened {alignment : Nat} {limit : Option Nat} {result : Reference × Draft}
    (h : d.newBlock alignment limit = .ok result) : result.2.unopened = d.unopened ++ [result.1] := by
  unfold newBlock at h
  simp only [refuse_if_eq_ok, pure_eq_ok] at h
  obtain ⟨-, rfl⟩ := h
  simp [Draft.unopened, takeReference, Supply.take, List.filter_append]

/-- A block that is opened does not wait any longer. -/
theorem openBlock_unopened (valid : d.Valid) (h : d.openBlock reference = .ok d') :
    d'.unopened = d.unopened.erase reference := by
  have hnodup := valid.unopened_nodup
  obtain ⟨index, unit, block, -, -, hindex, hfound, hfresh, rfl⟩ := openBlock_eq_ok.mp h
  obtain rfl := reference_of_blockIndex? hindex hfound
  obtain ⟨before, after, hblocks, hset⟩ := exists_split_of_getElem? hfound
  simp only [unopened, hblocks, List.filter_append, List.map_append, List.filter_cons, hfresh,
    Option.isNone_none, ↓reduceIte, List.map_cons] at hnodup
  have hnotin := fun hmem => (List.nodup_append.mp hnodup).2.2 _ hmem _ List.mem_cons_self rfl
  rw [unopened, unopened, hset, hblocks]
  simp only [List.filter_append, List.map_append, List.filter_cons, hfresh, Option.isNone_none,
    Option.isNone_some, ↓reduceIte, List.map_cons, List.erase_append_right _ hnotin,
    List.erase_cons_head, Bool.false_eq_true]

/-! ### Sites and marks -/

/-- Whether some block of a draft has a body. -/
def HasBody (d : Draft) (body : Body) : Prop := ∃ block ∈ d.blocks, block.body = some body

/-- Whether a site of a data unit refers to a reference. -/
def RefersIn (d : Draft) (unit : Nat) (target : Reference) : Prop :=
  ∃ body, d.HasBody body ∧ body.unit = unit ∧ ∃ site ∈ body.sites, site.target = target

/-- Whether a reference is marked in a data unit. -/
def MarkedIn (d : Draft) (unit : Nat) (reference : Reference) : Prop :=
  ∃ body, d.HasBody body ∧ body.unit = unit ∧ ∃ mark ∈ body.marks, mark.reference = reference

theorem isMarked_iff : d.isMarked unit reference = true ↔ d.MarkedIn unit reference := by
  unfold isMarked MarkedIn HasBody
  constructor
  · intro h
    obtain ⟨block, hblock, hmarked⟩ := List.any_eq_true.mp h
    split at hmarked
    · rename_i body hbody
      simp only [Bool.and_eq_true, decide_eq_true_eq, List.any_eq_true] at hmarked
      exact ⟨body, ⟨block, hblock, hbody⟩, hmarked⟩
    · cases hmarked
  · rintro ⟨body, ⟨block, hblock, hbody⟩, hmarked⟩
    refine List.any_eq_true.mpr ⟨block, hblock, ?_⟩
    simp only [hbody, Bool.and_eq_true, decide_eq_true_eq, List.any_eq_true]
    exact hmarked

theorem hasBody_of_active (h : d.active? = some (index, block, body)) : d.HasBody body :=
  ⟨block, List.mem_of_getElem? (active?_eq_some.mp h).2.1, (active?_eq_some.mp h).2.2⟩

theorem HasBody.valid (h : d.HasBody body) (valid : d.Valid) : d.BodyValid body := by
  obtain ⟨block, hblock, hbody⟩ := h
  exact valid.bodies block hblock body hbody

/-- Whether the open data unit has got sites that refer to some targets, and some marks, at most. -/
structure Adds (d d' : Draft) (targets marks : List Reference) : Prop where
  currentUnit : d'.currentUnit = d.currentUnit
  refers : ∀ unit target, d'.RefersIn unit target →
    d.RefersIn unit target ∨ d.currentUnit = some unit ∧ target ∈ targets
  marked : ∀ unit reference, d'.MarkedIn unit reference →
    d.MarkedIn unit reference ∨ d.currentUnit = some unit ∧ reference ∈ marks

theorem Adds.refl (d : Draft) : Adds d d [] [] :=
  ⟨rfl, fun _ _ h => Or.inl h, fun _ _ h => Or.inl h⟩

theorem Adds.trans (h : Adds d d' targets marks) (h' : Adds d' d'' targets' marks') :
    Adds d d'' (targets ++ targets') (marks ++ marks') where
  currentUnit := h'.currentUnit.trans h.currentUnit
  refers unit target hrefers := by
    rcases h'.refers unit target hrefers with hrefers | ⟨hunit, hnew⟩
    · rcases h.refers unit target hrefers with hrefers | ⟨hunit, hnew⟩
      · exact Or.inl hrefers
      · exact Or.inr ⟨hunit, List.mem_append_left _ hnew⟩
    · exact Or.inr ⟨h.currentUnit ▸ hunit, List.mem_append_right _ hnew⟩
  marked unit reference hmarked := by
    rcases h'.marked unit reference hmarked with hmarked | ⟨hunit, hnew⟩
    · rcases h.marked unit reference hmarked with hmarked | ⟨hunit, hnew⟩
      · exact Or.inl hmarked
      · exact Or.inr ⟨hunit, List.mem_append_left _ hnew⟩
    · exact Or.inr ⟨h.currentUnit ▸ hunit, List.mem_append_right _ hnew⟩

/-- New bodies that are empty add nothing. -/
theorem Adds.of_bodies (currentUnit : d'.currentUnit = d.currentUnit) (bodies : ∀ body, d'.HasBody body →
    d.HasBody body ∨ body.sites = [] ∧ body.marks = []) : Adds d d' [] [] where
  currentUnit := currentUnit
  refers unit target := by
    rintro ⟨body, hbody, hunit, site, hsite, htarget⟩
    rcases bodies body hbody with hold | ⟨hempty, -⟩
    · exact Or.inl ⟨body, hold, hunit, site, hsite, htarget⟩
    · exact absurd (hempty ▸ hsite) List.not_mem_nil
  marked unit reference := by
    rintro ⟨body, hbody, hunit, mark, hmark, hreference⟩
    rcases bodies body hbody with hold | ⟨-, hempty⟩
    · exact Or.inl ⟨body, hold, hunit, mark, hmark, hreference⟩
    · exact absurd (hempty ▸ hmark) List.not_mem_nil

theorem Adds.of_blocks (currentUnit : d'.currentUnit = d.currentUnit) (blocks : d'.blocks = d.blocks) :
    Adds d d' [] [] :=
  .of_bodies currentUnit fun body hbody => Or.inl (by
    unfold HasBody at hbody ⊢
    rwa [← blocks])

/-- Writing into the open block adds what it adds to the body. -/
theorem Adds.of_setBody (valid : d.Valid) (active : d.active? = some (index, block, body))
    (blocks : d'.blocks = (d.setBody index body').blocks) (current : d'.currentUnit = d.currentUnit)
    (unit : body'.unit = body.unit)
    (sites : ∀ site ∈ body'.sites, site ∈ body.sites ∨ site.target ∈ targets)
    (marked : ∀ mark ∈ body'.marks, mark ∈ body.marks ∨ mark.reference ∈ marks) :
    Adds d d' targets marks := by
  have hcurrent := (valid.cursor index block body active).2
  have hbodies : ∀ b, d'.HasBody b → d.HasBody b ∨ b = body' := by
    rintro b ⟨other, hother, hb⟩
    rw [blocks, setBody_blocks active] at hother
    rcases mem_set_of_ne hother with rfl | ⟨j, -, hj⟩
    · exact Or.inr (Option.some.inj hb).symm
    · exact Or.inl ⟨other, List.mem_of_getElem? hj, hb⟩
  have hold := hasBody_of_active active
  refine ⟨current, ?_, ?_⟩
  · rintro u target ⟨b, hb, hunit, site, hsite, rfl⟩
    rcases hbodies b hb with hb | rfl
    · exact Or.inl ⟨b, hb, hunit, site, hsite, rfl⟩
    · have hin := unit.symm.trans hunit
      exact (sites site hsite).imp (fun h => ⟨body, hold, hin, site, h, rfl⟩)
        fun h => ⟨hin ▸ hcurrent, h⟩
  · rintro u r ⟨b, hb, hunit, mark, hmark, rfl⟩
    rcases hbodies b hb with hb | rfl
    · exact Or.inl ⟨b, hb, hunit, mark, hmark, rfl⟩
    · have hin := unit.symm.trans hunit
      exact (marked mark hmark).imp (fun h => ⟨body, hold, hin, mark, h, rfl⟩)
        fun h => ⟨hin ▸ hcurrent, h⟩

theorem Valid.appends (h : d.Valid) (happends : Appends d d') : d'.Valid :=
  h.moves (happends.moves : Moves (fun _ => True) d d')

theorem Appends.adds (h : Appends d d') (valid : d.Valid) : Adds d d' [] [] := by
  induction h with
  | refl => exact .refl d
  | @tail d₁ d₂ happends happend ih =>
    obtain ⟨b, happend⟩ := happend
    have hvalid := valid.appends happends
    obtain ⟨index, block, body, hactive, -, rfl⟩ := append_eq_ok.mp happend
    exact ih.trans (.of_setBody hvalid hactive rfl rfl rfl (fun _ h => Or.inl h) fun _ h => Or.inl h)

theorem writeReference_adds (valid : d.Valid) (h : d.writeReference reference = .ok d') :
    Adds d d' [reference] [] := by
  obtain ⟨d₁, index, block, body, halign, hactive, -, -, rfl⟩ := writeReferenceAs_eq_ok.mp h
  have hvalid := valid.appends (align_appends halign)
  refine ((align_appends halign).adds valid).trans (.of_setBody hvalid hactive rfl rfl rfl
    (fun site hsite => ?_) fun _ h => Or.inl h)
  rcases List.mem_append.mp hsite with hold | hnew
  · exact Or.inl hold
  · obtain rfl := List.mem_singleton.mp hnew
    exact Or.inr (List.mem_singleton_self _)

theorem writeReference_unopened (h : d.writeReference reference = .ok d') :
    d'.unopened = d.unopened := by
  obtain ⟨d₁, index, block, body, halign, hactive, -, -, rfl⟩ := writeReferenceAs_eq_ok.mp h
  exact (setBody_unopened hactive _).trans (align_appends halign).unopened

/-- A text slot is a site with two words behind it. -/
theorem writeText_cases {byteCount charCount : UInt32}
    (h : d.writeText reference byteCount charCount = .ok d') :
    ∃ d₁, d.writeReference reference = .ok d₁ ∧ Appends d₁ d' := by
  unfold writeText at h
  simp only [bind_eq_ok] at h
  obtain ⟨d₁, hslot, d₂, hbytes, hchars⟩ := h
  exact ⟨d₁, hslot, (write_appends hbytes).trans (write_appends hchars)⟩

theorem newBlock_adds {alignment : Nat} {limit : Option Nat} {result : Reference × Draft}
    (h : d.newBlock alignment limit = .ok result) : Adds d result.2 [] [] := by
  unfold newBlock at h
  simp only [refuse_if_eq_ok, pure_eq_ok] at h
  obtain ⟨-, rfl⟩ := h
  refine .of_bodies rfl fun body hhas => ?_
  obtain ⟨block, hblock, hbody⟩ := hhas
  rcases List.mem_append.mp hblock with hold | hnew
  · exact Or.inl ⟨block, hold, hbody⟩
  · obtain rfl := List.mem_singleton.mp hnew
    cases hbody

theorem openBlock_adds (h : d.openBlock reference = .ok d') : Adds d d' [] [] := by
  obtain ⟨index, unit, block, -, -, -, hfound, -, rfl⟩ := openBlock_eq_ok.mp h
  refine .of_bodies rfl fun body hhas => ?_
  obtain ⟨other, hother, hbody⟩ := hhas
  rcases mem_set_of_ne hother with rfl | ⟨j, -, hj⟩
  · cases hbody
    exact Or.inr ⟨rfl, rfl⟩
  · exact Or.inl ⟨other, List.mem_of_getElem? hj, hbody⟩

theorem closeBlock_adds (h : d.closeBlock = .ok d') : Adds d d' [] [] :=
  .of_blocks (closeBlock_closed h).currentUnit (closeBlock_blocks h).1

theorem mark_adds (valid : d.Valid) (h : d.mark reference = .ok d') : Adds d d' [] [reference] := by
  unfold mark at h
  simp only [bind_eq_ok, active_eq_ok, Prod.exists, refuse_if_eq_ok, pure_eq_ok] at h
  obtain ⟨index, block, body, hactive, unit, -, -, rfl⟩ := h
  refine .of_setBody valid hactive rfl rfl rfl (fun _ h => Or.inl h) fun mark hmark => ?_
  rcases List.mem_append.mp hmark with hold | hnew
  · exact Or.inl hold
  · obtain rfl := List.mem_singleton.mp hnew
    exact Or.inr (List.mem_singleton_self _)

theorem mark_unopened (h : d.mark reference = .ok d') : d'.unopened = d.unopened := by
  unfold mark at h
  simp only [bind_eq_ok, active_eq_ok, Prod.exists, refuse_if_eq_ok, pure_eq_ok] at h
  obtain ⟨index, block, body, hactive, unit, -, -, rfl⟩ := h
  exact setBody_unopened hactive _

end Draft

end ObjectPack
