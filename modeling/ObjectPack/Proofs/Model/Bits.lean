import ObjectPack.Proofs.Model.Ranked

/-!
# Bits of words

Solving makes every boolean of an object one bit of one of its words (`Model.Solved.bool`).  The other way round,
every bit of a word is a boolean of its object or is clear (`Model.Solved.bits`): a word owns at most 32 booleans,
one for each of its lowest bits, and no bit stands behind those.
-/

namespace ObjectPack

open Outcome

/-- Whether a row is a word of at most 32 booleans without bits behind them. -/
def Row.IsWord (w : Row) : Prop :=
  w.kind = .bitSet ∧ w.count ≤ Model.boolsPerWord ∧ ∃ start word, w.start = some start ∧
    w.value = .bitSet word ∧ ∀ b, word.toNat.testBit b = true → b < w.count

/-- Whether row `x` is that of a boolean field of an object. -/
def Model.IsBoolean (m : Model) (o : Row) (x : Nat) (r : Row) : Prop :=
  o.Owns x ∧ m.row x = .ok r ∧ r.kind = .bool

namespace Model

variable {m m' : Model} {o r w : Row} {bools l : List Row} {i j k x top start groups passes : Nat} {place : Nat → Nat}

/-! ### Words -/

theorem bitsOf_lt (rows : List Row) : bitsOf rows < 2 ^ rows.length := by
  induction rows with
  | nil => exact Nat.one_pos
  | cons r rest ih =>
    rw [bitsOf, List.length_cons, Nat.pow_succ]
    split <;> omega

theorem bitSetRow_isWord (h : bools.length ≤ boolsPerWord) : (bitSetRow start bools).IsWord := by
  refine ⟨rfl, h, start, _, rfl, rfl, fun b hb => ?_⟩
  have hlt : (UInt32.ofNat (bitsOf bools)).toNat < 2 ^ bools.length := by
    rw [UInt32.toNat_ofNat']
    exact Nat.lt_of_le_of_lt (Nat.mod_le _ _) (bitsOf_lt bools)
  exact (Nat.pow_lt_pow_iff_right (by decide)).mp (Nat.lt_of_le_of_lt (Nat.ge_two_pow_of_testBit hb) hlt)

theorem bitSetRows_isWord (h : w ∈ bitSetRows groups start bools) : w.IsWord := by
  induction groups generalizing start bools with
  | zero => cases h
  | succ groups ih =>
    rcases List.mem_cons.mp h with rfl | h
    · exact bitSetRow_isWord (List.length_take_le _ _)
    · exact ih h

/-! ### Fields of a solved object -/

/-- The fields of an object in a solved model are its former ones with the booleans folded, in another order. -/
theorem Solved.fields_perm (solved : m.Solved m' passes place) (whole : m.Whole top) (ordered : m.Ordered)
    (object : m.IsObject i o) : ∃ start,
    ((m'.fields (m.foldedRow o)).map Row.face).Perm ((foldedFields start (m.fields o)).map Row.face) := by
  obtain ⟨start, hfields⟩ := solve_fields solved whole ordered object
  exact ⟨start, hfields ▸ iterate_perm sorted_perm passes _⟩

/-- Fields of different names lead to members of different names. -/
theorem Solved.names_nodup (solved : m.Solved m' passes place) (whole : m.Whole top) (ordered : m.Ordered)
    (object : m.IsObject i o) (distinct : ((m.fields o).map (·.name)).Nodup) :
    ((m'.fields (m.foldedRow o)).map (·.name)).Nodup := by
  obtain ⟨start, hperm⟩ := solved.fields_perm whole ordered object
  have hfaces : ∀ l : List Row, (l.map Row.face).map (·.name) = l.map (·.name) := fun l => by
    rw [List.map_map]
    exact List.map_congr_left fun r _ => Row.face_name r
  have hnames := hperm.map (·.name)
  rw [hfaces, hfaces] at hnames
  rw [hnames.nodup_iff, foldedFields, List.map_append]
  have hall := List.filter_append_perm (fun r : Row => decide (r.kind = .bool)) (m.fields o)
  have hboth : (((m.fields o).filter (·.kind ≠ .bool)).map (·.name) ++
      ((m.fields o).filter (·.kind = .bool)).map (·.name)).Nodup := by
    rw [← List.map_append]
    refine (List.Perm.nodup_iff (List.Perm.map _ ?_)).mpr distinct
    refine List.perm_append_comm.trans ?_
    simpa only [← decide_not] using hall
  exact hboth.sublist ((List.Sublist.refl _).append (names_bitSetRows (Nat.le_refl _)))

/-- The words of an object in a solved model are words of at most 32 booleans without bits behind them. -/
theorem Solved.isWord (solved : m.Solved m' passes place) (whole : m.Whole top) (ordered : m.Ordered)
    (object : m.IsObject i o) (none : ∀ x r, o.Owns x → m.row x = .ok r → r.kind ≠ .bitSet)
    (owns : (m.foldedRow o).Owns j) (hrow : m'.row j = .ok w) (kind : w.kind = .bitSet) : w.IsWord := by
  obtain ⟨start, hperm⟩ := solved.fields_perm whole ordered object
  have hmem := mem_fields ((foldedRow_kind m o).trans object.2) owns hrow
  obtain ⟨r, hr, hface⟩ := List.mem_map.mp (hperm.subset (List.mem_map_of_mem hmem))
  -- A word has no count that is left out of its face.
  have hkind : r.kind = .bitSet := by rw [← Row.face_kind r, hface, Row.face_kind, kind]
  rw [Row.face_of_ne (by rw [hkind]; decide), Row.face_of_ne (by rw [kind]; decide)] at hface
  subst hface
  rcases List.mem_append.mp hr with hother | hword
  · obtain ⟨x, howns, hx⟩ := exists_of_mem_fields object.2 (List.mem_of_mem_filter hother)
    exact absurd kind (none x r howns hx)
  · exact bitSetRows_isWord hword

/-- A boolean of an object is one bit of a word. -/
theorem Solved.bit (solved : m.Solved m' passes place) (object : m.IsObject i o) (boolean : m.IsBoolean o x r) :
    ∃ j w, (m.foldedRow o).Owns j ∧ m'.row j = .ok w ∧ w.HoldsBit (place x) (decide (r.value = .bool true)) := by
  obtain ⟨j, ⟨howns, w, hw, hbit⟩, -⟩ := solved.bool i o x r object boolean.1 boolean.2.1 boolean.2.2
  exact ⟨j, w, howns, hw, hbit⟩

/-- Every bit of a word is a boolean of its object or is clear. -/
theorem Solved.bits (solved : m.Solved m' passes place) (whole : m.Whole top) (whole' : m'.Whole top)
    (ordered : m.Ordered) (object : m.IsObject i o)
    (none : ∀ x r, o.Owns x → m.row x = .ok r → r.kind ≠ .bitSet) (owns : (m.foldedRow o).Owns j)
    (hrow : m'.row j = .ok w) (kind : w.kind = .bitSet) : ∃ start word, w.start = some start ∧
      w.value = .bitSet word ∧ w.count ≤ boolsPerWord ∧
      (∀ b < w.count, ∃ x r, m.IsBoolean o x r ∧ place x = start + b ∧ m'.row (start + b) = .ok r ∧
        word.toNat.testBit b = decide (r.value = .bool true)) ∧
      ∀ b, word.toNat.testBit b = true → b < w.count := by
  obtain ⟨-, hcount, start, word, hstart, hvalue, hclear⟩ := solved.isWord whole ordered object none owns hrow kind
  refine ⟨start, word, hstart, hvalue, hcount, fun b hb => ?_, hclear⟩
  have howns : w.Owns (start + b) := ⟨start, hstart, by omega, by
    rw [Row.ownedCount, kind]
    exact Nat.add_lt_add_left hb start⟩
  rcases solved.owned i o j object owns with ⟨x, r, hx, hr, -, rfl⟩ | ⟨w', hw', -, hbools⟩
  · -- A field that has been kept is no word.
    obtain rfl := Except.ok.inj ((solved.row x r hr).symm.trans hrow)
    rw [foldedRow_kind] at kind
    exact absurd kind (none x r hx hr)
  · obtain rfl := Except.ok.inj (hw'.symm.trans hrow)
    obtain ⟨x, r, hx, hr, hbool, hplace⟩ := hbools _ howns
    have hmoved := solved.row x r hr
    rw [foldedRow_of_ne m (by rw [hbool]; decide), hplace] at hmoved
    refine ⟨x, r, ⟨hx, hr, hbool⟩, hplace, hmoved, ?_⟩
    obtain ⟨j', w₁, -, hw₁, hbit⟩ := solved.bit object ⟨hx, hr, hbool⟩
    -- The word that the boolean is a bit of is this one.
    obtain rfl := whole'.eq_of_owns hw₁ hrow hbit.owns (hplace ▸ howns) (by rw [hbit.1]; decide)
    obtain rfl := Except.ok.inj (hw₁.symm.trans hrow)
    obtain ⟨-, start', word', hstart', -, -, hvalue', htest⟩ := hbit
    cases hstart.symm.trans hstart'
    cases hvalue.symm.trans hvalue'
    rwa [hplace, Nat.add_sub_cancel_left] at htest

end Model

end ObjectPack
