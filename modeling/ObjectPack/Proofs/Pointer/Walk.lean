import ObjectPack.Proofs.Container.Access
import ObjectPack.Proofs.Link.Chain

/-!
# Encoding a chain and walking it

A chain may visit its slots in any order: a link is a signed distance, so it leads forth and back.  An entry
can be encoded iff both of its distances are in the reach of a signed 32-bit number
(`Pointer.isSome_encodeChained?_iff`).  No link is zero but the last one, as slots that are apart have
different positions; so when all slots are written, in whatever order and over whatever content, a walk
gives the entries of the chain, as many as it may visit, and none from then on (`chained_walk`).
-/

namespace ObjectPack

open Outcome

/-! ### What can be encoded -/

/-- Whether a distance is a signed 32-bit number. -/
def InReach (d : Int) : Prop := -0x80000000 ≤ d ∧ d < 0x80000000

theorem isSome_delta32?_iff {d : Int} : (delta32? d).isSome ↔ InReach d := by
  unfold delta32? InReach
  split <;> simp [*]

/-- An entry can be encoded iff its distances to the next position, if there is one, and to its target are in
reach. -/
theorem Pointer.isSome_encodeChained?_iff {p : Pointer} {next : Option UInt32} {e : Endian} :
    (p.encodeChained? next e).isSome ↔ (∀ n ∈ next, InReach (distance p.position n)) ∧ InReach p.delta := by
  rw [← isSome_delta32?_iff (d := p.delta)]
  cases next with
  | none => cases htarget : delta32? p.delta <;> simp [encodeChained?, htarget]
  | some n =>
    simp only [Option.mem_some_iff, forall_eq', ← isSome_delta32?_iff]
    cases hlink : delta32? (distance p.position n) <;> cases htarget : delta32? p.delta <;>
      simp [encodeChained?, hlink, htarget]

/-- The slots of a chain can be made iff each entry can be encoded with the position of the next one. -/
theorem exists_chainedSlots_iff {e : Endian} {pointers : List Pointer} :
    (∃ slots, chainedSlots e pointers = .ok slots) ↔ ∀ before p rest, pointers = before ++ p :: rest →
      (p.encodeChained? (rest.head?.map (·.position)) e).isSome := by
  constructor
  · rintro ⟨slots, h⟩ before p rest rfl
    obtain ⟨slot, -, hslot⟩ := exists_chainedSlot h
    exact Option.isSome_of_eq_some hslot
  · intro hall
    induction pointers with
    | nil => exact ⟨[], rfl⟩
    | cons p rest ih =>
      obtain ⟨slot, hslot⟩ := Option.isSome_iff_exists.mp (hall [] p rest rfl)
      obtain ⟨slots, hslots⟩ := ih fun before q later heq => hall (p :: before) q later (congrArg _ heq)
      refine ⟨(p.position.toNat, slot) :: slots, ?_⟩
      rw [chainedSlots, chainedSlot_eq_ok.mpr hslot, hslots]
      rfl

/-! ### What is walked -/

namespace Chain

variable {b : Bytes} {e : Endian} {c : Chain}

/-- A walk that has nothing to visit goes on answering with none. -/
theorem steps_of_over (h : c.remaining = 0 ∨ c.next = none) (n : Nat) : c.steps n = List.replicate n none := by
  have hstep : c.step = (none, c) := by
    unfold step
    split
    · rfl
    · rename_i hcount
      rw [h.resolve_left hcount]
  induction n with
  | zero => rfl
  | succ n ih =>
    rw [steps, hstep, List.replicate_succ]
    exact congrArg _ ih

/-- A walk along a chain gives its entries, as many as it may visit, and none from then on. -/
theorem Linked.steps_eq {pointers : List Pointer} (h : Linked b e pointers)
    (apart : pointers.Pairwise fun p q => p.position ≠ q.position) (count calls : Nat) :
    Chain.steps calls ⟨b, e, pointers.head?.map (·.position), count⟩
      = List.takeD calls ((pointers.take count).map some) none := by
  induction pointers generalizing count calls with
  | nil => rw [steps_of_over (.inr rfl), List.take_nil, List.map_nil, List.takeD_nil]
  | cons p rest ih =>
    cases count with
    | zero => rw [steps_of_over (.inl rfl), List.take_zero, List.map_nil, List.takeD_nil]
    | succ count =>
      cases calls with
      | zero => rfl
      | succ calls =>
        obtain ⟨hfirst, hrest⟩ := List.pairwise_cons.mp apart
        have hlater : Linked b e rest := by
          cases h
          assumption
        rw [steps, List.head?_cons, Option.map_some, h.step hfirst]
        exact congrArg (some p :: ·) (ih hlater hrest count calls)

end Chain

/-! ### What is stored -/

variable {e : Endian} {unit : Bytes} {pointers : List Pointer} {slots stored : List (Nat × Bytes)}

/-- Slots that are apart form a chain where they are stored, whatever the order in which they are written and
whatever stood there before. -/
theorem linked_of_stored (apart : pointers.Pairwise fun p q => PositionsApart p.position.toNat q.position.toNat)
    (inside : ∀ p ∈ pointers, p.position.toNat + Pointer.slotSize ≤ unit.length)
    (made : chainedSlots e pointers = .ok slots) (order : stored.Perm slots) :
    Chain.Linked (patchAll unit stored) e pointers := by
  obtain ⟨hpositions, hlengths⟩ := chainedSlots_positions made
  have hinside : ∀ slot ∈ stored, slot.1 + slot.2.length ≤ unit.length := by
    intro slot hslot
    have hmem : slot.1 ∈ pointers.map (·.position.toNat) :=
      hpositions ▸ List.mem_map_of_mem (order.subset hslot)
    obtain ⟨p, hp, heq⟩ := List.mem_map.mp hmem
    rw [hlengths slot (order.subset hslot), ← heq]
    exact inside p hp
  have hpairs : (slots.map Prod.fst).Pairwise PositionsApart := by
    rw [hpositions]
    exact List.pairwise_map.mpr apart
  have hsymm : Std.Symm fun x y : Nat × Bytes => PositionsApart x.1 y.1 := ⟨fun _ _ h => h.symm⟩
  have hapart : ∀ x ∈ slots, ∀ y ∈ slots, x = y ∨ SlotsApart x y := by
    intro x hx y hy
    by_cases heq : x = y
    · exact .inl heq
    · have hpair := (List.pairwise_map.mp hpairs).forall hx hy heq
      unfold SlotsApart
      rw [hlengths x hx, hlengths y hy]
      exact .inr hpair
  refine linked_of_chainedSlots made fun slot hslot => ?_
  rw [length_patchAll hinside]
  exact ⟨patchAll_hasAt hinside (fun x hx y hy => hapart x (order.subset hx) y (order.subset hy))
    (order.symm.subset hslot), hinside slot (order.symm.subset hslot)⟩

/-- Encoding a chain and walking it are inverse, for pointers in any order whose slots are apart and inside
the unit.  An entry can be encoded iff the distances to the next position and to its own target are in
reach, and the slots can be made iff all entries can be encoded.  When they are written into the unit, a walk
from the first position gives the pointers, as many as it may visit, and none from then on. -/
theorem chained_walk (e : Endian) (unit : Bytes) (pointers : List Pointer)
    (apart : pointers.Pairwise fun p q => PositionsApart p.position.toNat q.position.toNat)
    (inside : ∀ p ∈ pointers, p.position.toNat + Pointer.slotSize ≤ unit.length) :
    (∀ before p rest, pointers = before ++ p :: rest →
      ((p.encodeChained? (rest.head?.map (·.position)) e).isSome ↔
        (∀ next ∈ rest.head?, InReach (distance p.position next.position)) ∧ InReach p.delta)) ∧
    ((∃ slots, chainedSlots e pointers = .ok slots) ↔ ∀ before p rest, pointers = before ++ p :: rest →
      (p.encodeChained? (rest.head?.map (·.position)) e).isSome) ∧
    ∀ slots, chainedSlots e pointers = .ok slots → ∀ stored : List (Nat × Bytes), stored.Perm slots →
      ∀ count calls : Nat,
        Chain.visits calls ⟨patchAll unit stored, e, pointers.head?.map (·.position), count⟩
          = .ok (List.takeD calls ((pointers.take count).map some) none) := by
  refine ⟨fun before p rest _ => ?_, exists_chainedSlots_iff, fun slots made stored order count calls => ?_⟩
  · rw [Pointer.isSome_encodeChained?_iff]
    cases rest.head? <;> simp
  · have hlinked := linked_of_stored apart inside made order
    have hdistinct : pointers.Pairwise fun p q => p.position ≠ q.position := by
      refine apart.imp fun h heq => ?_
      rw [heq] at h
      unfold PositionsApart Pointer.slotSize at h
      omega
    rw [Chain.visits_eq, hlinked.steps_eq hdistinct]

/-- A chain that leads forth and back. -/
def roaming : List Pointer := [⟨16, 4⟩, ⟨0, 30⟩, ⟨24, 16⟩, ⟨8, 0⟩]

/-- The slots are written last first over other content; a walk gives all entries or the first two. -/
theorem chained_walk_roaming : ∃ slots, chainedSlots .big roaming = .ok slots ∧
    Chain.visits 6 ⟨patchAll (List.replicate 33 0xcc) slots.reverse, .big, some 16, 4⟩
      = .ok [some ⟨16, 4⟩, some ⟨0, 30⟩, some ⟨24, 16⟩, some ⟨8, 0⟩, none, none] ∧
    Chain.visits 3 ⟨patchAll (List.replicate 33 0xcc) slots.reverse, .big, some 16, 2⟩
      = .ok [some ⟨16, 4⟩, some ⟨0, 30⟩, none] := by
  obtain ⟨-, -, hwalk⟩ := chained_walk .big (List.replicate 33 0xcc) roaming
    (by unfold PositionsApart; decide) (by decide)
  obtain ⟨slots, hslots⟩ : ∃ slots, chainedSlots .big roaming = .ok slots := ⟨_, rfl⟩
  exact ⟨slots, hslots, hwalk slots hslots _ (List.reverse_perm slots) 4 6,
    hwalk slots hslots _ (List.reverse_perm slots) 2 3⟩

end ObjectPack
