import ObjectPack.Pointer.Chain

/-!
# Where walks stop

A walk along chained sites reads one entry after another (`Chain.entries`).  Its `i`-th step answers with the
`i`-th entry, or with none if there is no such entry or if its target is no offset (`Chain.step_after`).  A walk
that has come to the end of its entries is over, whatever ended it: the count, a missing link, a link that leaves
the range of offsets, or a slot that leaves the unit.  An entry whose target is no offset is only passed over: its
link stays in force, so a walk stays stopped there iff no later entry has a target (`Chain.stays_stopped_iff`).
-/

namespace ObjectPack.Chain

/-- What the slot of a chained site says: its link, and where its target would stand. -/
structure Entry where
  position : UInt32
  link : Int
  target : Int
  deriving DecidableEq, Repr

namespace Entry

/-- The site with its target, if this is an offset. -/
def pointer? (e : Entry) : Option Pointer := (offset32? e.target).map (⟨e.position, ·⟩)

/-- Where the link leads. -/
def next? (e : Entry) : Option UInt32 :=
  if e.link = 0 then none else offset32? ((e.position.toNat : Int) + e.link)

theorem pointer?_eq_none {e : Entry} : e.pointer? = none ↔ offset32? e.target = none := Option.map_eq_none_iff

end Entry

/-- The entry of the slot at a position, if the slot is inside the unit. -/
def entryAt? (unit : Bytes) (e : Endian) (position : UInt32) : Option Entry :=
  (unit.slice? position.toNat Pointer.slotSize).map fun slot =>
    ⟨position, e.delta32 slot 0, (position.toNat : Int) + e.delta32 slot 4⟩

/-- The entries that links lead to from a position on, as many as the count allows. -/
def entriesFrom (unit : Bytes) (e : Endian) : Nat → Option UInt32 → List Entry
  | 0, _ => []
  | _ + 1, none => []
  | count + 1, some position =>
    match entryAt? unit e position with
    | none => []
    | some entry => entry :: entriesFrom unit e count entry.next?

/-- The entries of a walk. -/
def entries (c : Chain) : List Entry := entriesFrom c.unit c.endian c.remaining c.next

/-- The walk behind its first `n` steps. -/
def after : Nat → Chain → Chain
  | 0, c => c
  | n + 1, c => after n c.step.2

variable {c : Chain} {entry : Entry} {rest : List Entry}

/-- A walk without entries is over. -/
theorem step_of_nil (h : c.entries = []) : c.step.1 = none ∧ c.step.2.entries = [] := by
  unfold step
  by_cases hremaining : c.remaining = 0
  · rw [if_pos hremaining]
    exact ⟨rfl, h⟩
  rw [if_neg hremaining]
  cases hnext : c.next with
  | none => exact ⟨rfl, h⟩
  | some position =>
    dsimp only
    cases hslot : c.unit.slice? position.toNat Pointer.slotSize with
    | none =>
      obtain ⟨n, hn⟩ := Nat.exists_eq_succ_of_ne_zero hremaining
      refine ⟨rfl, ?_⟩
      show entriesFrom c.unit c.endian c.remaining none = []
      rw [hn]
      rfl
    | some slot =>
      obtain ⟨n, hn⟩ := Nat.exists_eq_succ_of_ne_zero hremaining
      rw [entries, hn, hnext, entriesFrom, entryAt?, hslot] at h
      cases h

/-- A step answers with the first entry and goes on behind it, be there a target or not. -/
theorem step_of_cons (h : c.entries = entry :: rest) :
    c.step.1 = entry.pointer? ∧ c.step.2.entries = rest := by
  unfold entries at h
  cases hremaining : c.remaining with
  | zero =>
    rw [hremaining, entriesFrom] at h
    cases h
  | succ count =>
    cases hnext : c.next with
    | none =>
      rw [hremaining, hnext, entriesFrom] at h
      cases h
    | some position =>
      rw [hremaining, hnext, entriesFrom] at h
      cases hslot : c.unit.slice? position.toNat Pointer.slotSize with
      | none =>
        rw [entryAt?, hslot] at h
        cases h
      | some slot =>
        rw [entryAt?, hslot] at h
        cases h
        have hcount : c.remaining ≠ 0 := by rw [hremaining]; exact Nat.succ_ne_zero count
        unfold step
        rw [if_neg hcount, hnext]
        simp only [hslot]
        refine ⟨rfl, ?_⟩
        show entriesFrom c.unit c.endian (c.remaining - 1) _ = _
        rw [hremaining]
        rfl

/-- Every step takes one entry away. -/
theorem entries_after (n : Nat) (c : Chain) : (after n c).entries = c.entries.drop n := by
  induction n generalizing c with
  | zero => rfl
  | succ n ih =>
    rw [after, ih]
    cases hentries : c.entries with
    | nil => rw [(step_of_nil hentries).2, List.drop_nil, List.drop_nil]
    | cons entry rest => rw [(step_of_cons hentries).2, List.drop_succ_cons]

/-- The answer of each step. -/
theorem step_after (n : Nat) (c : Chain) : (after n c).step.1 = c.entries[n]?.bind Entry.pointer? := by
  have hfirst : c.entries[n]? = (after n c).entries.head? := by
    rw [entries_after, List.head?_drop]
  rw [hfirst]
  cases hentries : (after n c).entries with
  | nil => exact (step_of_nil hentries).1
  | cons entry rest => exact (step_of_cons hentries).1

/-- A walk that has answered with none does so for ever iff no entry behind the one that it has stopped at, if
there is any, has a target that is an offset. -/
theorem stays_stopped_iff (c : Chain) (i : Nat) (stopped : (after i c).step.1 = none) :
    (∀ j, i ≤ j → (after j c).step.1 = none) ↔ ∀ e ∈ c.entries.drop (i + 1), offset32? e.target = none := by
  constructor
  · intro hnone e he
    obtain ⟨k, hk⟩ := List.getElem?_of_mem he
    rw [List.getElem?_drop] at hk
    have hstep := hnone (i + 1 + k) (by omega)
    rw [step_after, hk] at hstep
    exact Entry.pointer?_eq_none.mp hstep
  · intro hpassed j hj
    rcases Nat.eq_or_lt_of_le hj with rfl | hlater
    · exact stopped
    · rw [step_after]
      cases hentry : c.entries[j]? with
      | none => rfl
      | some e =>
        obtain ⟨k, rfl⟩ := Nat.exists_eq_add_of_le (Nat.succ_le_of_lt hlater)
        have hmem : e ∈ c.entries.drop (i + 1) := by
          refine List.mem_of_getElem? (i := k) ?_
          rw [List.getElem?_drop]
          exact hentry
        exact Entry.pointer?_eq_none.mpr (hpassed e hmem)

/-- A walk whose second entry is passed over, as its target would stand in front of the unit, and whose last entry,
to which the second one leads, has such a target too. -/
def downhill : Chain :=
  ⟨[8, 0, 0, 0, 16, 0, 0, 0, 8, 0, 0, 0, 0xf0, 0xff, 0xff, 0xff, 0, 0, 0, 0, 0xe0, 0xff, 0xff, 0xff], .little, some 0, 4⟩

theorem stays_stopped_iff_downhill : (after 0 downhill).step.1 = some ⟨0, 16⟩ ∧ (after 1 downhill).step.1 = none ∧
    (after 1 downhill).step.2.next = some 16 ∧ ∀ j, 1 ≤ j → (after j downhill).step.1 = none :=
  ⟨by decide, by decide, by decide, (stays_stopped_iff downhill 1 (by decide)).mpr (by decide)⟩

/-- A walk whose first entry has a target in front of the unit and leads to a second one, which ends the chain. -/
def detour : Chain := ⟨[8, 0, 0, 0, 0xff, 0xff, 0xff, 0xff, 0, 0, 0, 0, 0, 0, 0, 0], .little, some 0, 2⟩

/-- After it has answered with none the walk answers with a site. -/
theorem detour_goes_on : (after 0 detour).step.1 = none ∧ (after 1 detour).step.1 = some ⟨8, 8⟩ := by
  decide

end ObjectPack.Chain
