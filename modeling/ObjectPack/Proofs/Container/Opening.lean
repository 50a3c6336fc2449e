import Mathlib.Data.List.ReduceOption
import Mathlib.Data.List.TakeWhile
import ObjectPack.Proofs.Container.Access

/-!
# Opening arbitrary bytes

Nothing is assumed here about the byte string that is opened: its header, its records, its unit headers and
its links may hold anything.  Opening answers with a container or with an error.  In a container that has been
opened all units are there, and no others; each is the range that its record names (`Reader.Sees`), a text is
found exactly where one stands (`UnitReader.text?_eq_some_iff`), and a walk along the chained sites finds no
more of them than the unit header announces, all inside the unit (`Chain.steps_bounded`), since every step
that finds a site has used up one of them (`Chain.step_bounded`) – links that form a cycle change nothing.
`Reader.load_sees` says all of this of the accesses that opening and reading are made of.
-/

namespace ObjectPack

open Outcome

/-! ### Texts -/

/-- A byte string is read as a text exactly if it is the UTF-8 form of this text. -/
theorem Bytes.toText?_eq_some_iff {b : Bytes} {text : String} : b.toText? = some text ↔ ofText text = b := by
  unfold toText? ofText String.fromUTF8?
  constructor
  · intro h
    split at h
    · cases h
      rfl
    · cases h
  · rintro rfl
    rw [dif_pos text.isValidUTF8]
    rfl

/-- Whether a text stands at a position, with a zero byte behind it and none inside. -/
def Bytes.TextAt (b : Bytes) (position : Nat) (text : String) : Prop :=
  0 ∉ ofText text ∧ ∃ rest, b.drop position = ofText text ++ 0 :: rest

/-- A reader finds the text that stands at a position, and no text where none stands. -/
theorem Container.UnitReader.text?_eq_some_iff {u : UnitReader} {position : UInt32} {text : String} :
    u.text? position = some text ↔ u.bytes.TextAt position.toNat text := by
  unfold text? Bytes.TextAt
  generalize u.bytes.drop position.toNat = tail
  dsimp only
  constructor
  · intro h
    split at h
    · rename_i hshorter
      rw [Bytes.toText?_eq_some_iff] at h
      rw [h]
      refine ⟨fun hmem => by simpa using List.mem_takeWhile_imp hmem, ?_⟩
      have hparts := List.takeWhile_append_dropWhile (p := (· ≠ 0)) (l := tail)
      cases hrest : tail.dropWhile (· ≠ 0) with
      | nil =>
        rw [hrest, List.append_nil] at hparts
        rw [hparts] at hshorter
        exact absurd hshorter (Nat.lt_irrefl _)
      | cons x rest =>
        have hzero : x = 0 := by
          have hhead := List.head?_dropWhile_not (· ≠ 0) tail
          rw [hrest] at hhead
          simpa using hhead
        rw [hrest, hzero] at hparts
        exact ⟨rest, hparts.symm⟩
    · cases h
  · rintro ⟨hnone, rest, rfl⟩
    have htext : (Bytes.ofText text ++ 0 :: rest).takeWhile (· ≠ 0) = Bytes.ofText text := by
      rw [List.takeWhile_append_of_pos fun x hx => by simpa using ne_of_mem_of_not_mem hx hnone]
      simp
    rw [htext, if_pos (by simp), Bytes.toText?_eq_some_iff]

/-! ### Walks -/

namespace Chain

/-- A step stays in its data unit; a site that it finds has its slot inside, and has been counted. -/
theorem step_bounded (c : Chain) : c.step.2.unit = c.unit ∧
    c.step.1.toList.length + c.step.2.remaining ≤ c.remaining ∧
      ∀ p ∈ c.step.1, p.position.toNat + Pointer.slotSize ≤ c.unit.length := by
  unfold step
  by_cases hremaining : c.remaining = 0
  · rw [if_pos hremaining]
    exact ⟨rfl, by simp, fun p hp => nomatch hp⟩
  rw [if_neg hremaining]
  cases c.next with
  | none => exact ⟨rfl, by simp, fun p hp => nomatch hp⟩
  | some position =>
    dsimp only
    cases hslot : c.unit.slice? position.toNat Pointer.slotSize with
    | none => exact ⟨rfl, by simp, fun p hp => nomatch hp⟩
    | some slot =>
      refine ⟨rfl, ?_, ?_⟩
      · dsimp only
        cases offset32? ((position.toNat : Int) + c.endian.delta32 slot 4) with
        | none =>
          show 0 + (c.remaining - 1) ≤ c.remaining
          omega
        | some target =>
          show 1 + (c.remaining - 1) ≤ c.remaining
          omega
      · intro p hp
        obtain ⟨target, -, rfl⟩ := Option.map_eq_some_iff.mp hp
        unfold Bytes.slice? at hslot
        split at hslot
        · assumption
        · cases hslot

/-- A walk of any number of steps finds no more sites than it may visit, and all of them have their slots
inside the data unit. -/
theorem steps_bounded (n : Nat) (c : Chain) : (c.steps n).reduceOption.length ≤ c.remaining ∧
    ∀ p, some p ∈ c.steps n → p.position.toNat + Pointer.slotSize ≤ c.unit.length := by
  induction n generalizing c with
  | zero => exact ⟨Nat.zero_le _, fun p hp => nomatch hp⟩
  | succ n ih =>
    obtain ⟨hunit, hcount, hinside⟩ := c.step_bounded
    obtain ⟨hlater, hbehind⟩ := ih c.step.2
    refine ⟨?_, fun p hp => ?_⟩
    · show (c.step.1 :: steps n c.step.2).reduceOption.length ≤ _
      cases hfound : c.step.1 with
      | none =>
        rw [hfound, Option.toList_none, List.length_nil] at hcount
        rw [List.reduceOption_cons_of_none]
        omega
      | some p =>
        rw [hfound, Option.toList_some, List.length_singleton] at hcount
        rw [List.reduceOption_cons_of_some, List.length_cons]
        omega
    · rcases List.mem_cons.mp hp with hfirst | hlater
      · exact hinside p hfirst.symm
      · exact hunit ▸ hbehind p hlater

@[simp] theorem length_steps (n : Nat) (c : Chain) : (c.steps n).length = n := by
  induction n generalizing c with
  | zero => rfl
  | succ n ih => exact congrArg Nat.succ (ih c.step.2)

end Chain

/-! ### Units -/

namespace Container

/-- What can be relied on in data unit `i` of a byte string, seen as `view`. -/
structure Reader.Sees (b : Bytes) (r : Reader) (i : Nat) (view : UnitReader) : Prop where
  /-- The record stands in the table behind the header. -/
  record : UnitRecord.read r.endian ((b.drop (headerSize + i * recordSize)).take recordSize) = .ok view.record
  inside : view.record.offset.toNat + view.record.size.toNat ≤ b.length
  bytes : view.bytes = (b.drop view.record.offset.toNat).take view.record.size.toNat
  header : UnitHeader.read r.endian view.bytes = .ok view.header
  large : unitHeaderSize ≤ view.bytes.length
  texts : ∀ position, ∃ found, view.loadText? position = .ok found ∧
    ∀ text, found = some text ↔ view.bytes.TextAt position.toNat text
  walks : ∀ n, ∃ found, view.chain.visits n = .ok found ∧ found.length = n ∧
    found.reduceOption.length ≤ view.header.pointerCount.toNat ∧
      ∀ p, some p ∈ found → p.position.toNat + Pointer.slotSize ≤ view.bytes.length

namespace Reader

variable {b : Bytes} {r : Reader} {i : Nat}

/-- All of it holds of every unit of what has been accepted. -/
theorem Accepted.sees (accepted : Accepted b r) (hi : i < r.unitCount) : Sees b r i (r.view i) := by
  have hlength := accepted.length_unitBytes hi
  have hinside := accepted.inside hi
  have hbytes : (r.view i).bytes = (b.drop (r.record i).offset.toNat).take (r.record i).size.toNat := by
    rw [← accepted.bytes]
    rfl
  have hlarge : unitHeaderSize ≤ (r.view i).bytes.length := hlength ▸ hinside.2
  exact
    { record := accepted.bytes ▸ read_record (accepted.bytes.symm ▸ accepted.records) hi
      inside := hinside.1
      bytes := hbytes
      header := by
        unfold unitHeaderSize at hlarge
        rw [UnitHeader.read, if_neg (by omega)]
        rfl
      large := hlarge
      texts := fun position =>
        ⟨_, UnitReader.loadText?_eq _ position, fun text => UnitReader.text?_eq_some_iff⟩
      walks := fun n => ⟨_, Chain.visits_eq n _, Chain.length_steps n _, Chain.steps_bounded n _⟩ }

/-- Opening any byte string breaks no contract, nor does anything that is done with a container that has been
opened: its units are found, each inside the byte string, and no others; texts are read exactly where they
stand; and no walk finds more sites than announced, or one that leaves its unit. -/
theorem load_sees (b : Bytes) : KeepsContracts (load b) ∧ ∀ r, load b = .ok r →
    (∀ i, ∃ found, r.loadUnit? i = .ok found ∧ (found.isSome ↔ i < r.unitCount)) ∧
      ∃ views, r.loadUnits = .ok views ∧ views.length = r.unitCount ∧
        ∀ i view, views[i]? = some view → r.loadUnit? i = .ok (some view) ∧ Sees b r i view := by
  rw [load_eq]
  refine ⟨keepsContracts_mapError _ id, fun r hr => ?_⟩
  have haccepted := accepted_of_ofBytes (mapError_eq_ok.mp hr)
  refine ⟨fun i => ⟨_, loadUnit?_eq haccepted i, ?_⟩, r.units, loadUnits_eq haccepted, ?_, ?_⟩
  · by_cases hi : i < r.unitCount
    · simp only [unit?_of_lt hi, Option.isSome_some, hi]
    · simp only [unit?, hi, if_false, Option.isSome_none, Bool.false_eq_true]
  · rw [units_eq, List.length_map, List.length_range]
  · intro i view hview
    rw [units_eq, List.getElem?_map, Option.map_eq_some_iff] at hview
    obtain ⟨j, hj, rfl⟩ := hview
    obtain ⟨hi, rfl⟩ : i < r.unitCount ∧ i = j := by simpa using List.getElem?_eq_some_iff.mp hj
    rw [loadUnit?_eq haccepted, unit?_of_lt hi]
    exact ⟨rfl, haccepted.sees hi⟩

/-- A container whose two chained sites link to each other. -/
def circular : Bytes :=
  let header : UnitHeader := ⟨16, 5, noRoot⟩
  let rest := (UnitRecord.mk 0 48 32).toBytes .little ++ header.toBytes .little
    ++ [8, 0, 0, 0, 8, 0, 0, 0] ++ [0xf8, 0xff, 0xff, 0xff, 0, 0, 0, 0]
  { Header.blank with checksum := Checksum.crc32 rest, totalSize := 80, unitCount := 1 }.toBytes ++ rest

/-- A walk of a thousand steps through the circle finds no more than the five sites announced. -/
theorem load_sees_circular : ∃ r view found, load circular = .ok r ∧ r.loadUnit? 0 = .ok (some view) ∧
    view.chain.visits 1000 = .ok found ∧ found.length = 1000 ∧ found.reduceOption.length ≤ 5 := by
  have hcheck : ((load circular).toOption.any fun r => (r.loadUnit? 0).toOption.any fun found =>
      found.any fun view => r.unitCount = 1 && view.header.pointerCount = 5) = true := by decide +kernel
  simp only [Option.any_eq_true, Bool.and_eq_true, decide_eq_true_eq, toOption_eq_some] at hcheck
  obtain ⟨r, hr, _, hload, view, rfl, hcount, hpointers⟩ := hcheck
  obtain ⟨-, views, -, hlength, hviews⟩ := (load_sees circular).2 r hr
  obtain ⟨hload', hsees⟩ := hviews 0 _ (List.getElem?_eq_getElem (by omega))
  obtain rfl : _ = view := Option.some.inj (Except.ok.inj (hload'.symm.trans hload))
  obtain ⟨found, hvisits, hsteps, hfound, -⟩ := hsees.walks 1000
  exact ⟨r, _, found, hr, hload, hvisits, hsteps, by rwa [hpointers] at hfound⟩

end Reader

end Container

end ObjectPack
