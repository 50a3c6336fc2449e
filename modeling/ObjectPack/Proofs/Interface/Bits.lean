import Mathlib.Data.Nat.Bitwise
import ObjectPack.Proofs.Interface.Introduce
import ObjectPack.Proofs.Model.Bits

/-!
# Getters of booleans

The booleans of an object are bits of its words, and the getters of its struct count the bits of every word from
the lowest one on.  So a boolean field has one getter, which masks the bit of the word that the boolean is
(`Model.Solved.readsBooleans`), and no other bit has a getter or is set.  Both follow from one relation: bit `b`
of member `j` is row `l` (`Model.BitIs`), which every boolean field has at one place, and which leads to a boolean
field from every place (`Model.Solved.exists_bit`, `Model.Solved.boolean_of_bit`).
-/

namespace ObjectPack

open Outcome Interface

namespace Interface

/-- What the getter of a bit answers for a word: `(word & (1u << k)) != 0`. -/
def readBit (word : UInt32) (k : Nat) : Bool := word &&& (1 <<< UInt32.ofNat k) != 0

theorem readBit_eq (word : UInt32) {k : Nat} (h : k < 32) : readBit word k = word.toNat.testBit k := by
  have hshift : (1 <<< UInt32.ofNat k : UInt32).toNat = 2 ^ k := by
    rw [UInt32.toNat_shiftLeft, UInt32.toNat_ofNat', Nat.mod_eq_of_lt (Nat.lt_trans h (by decide)),
      Nat.mod_eq_of_lt h, UInt32.toNat_one, Nat.shiftLeft_eq, Nat.one_mul]
    exact Nat.mod_eq_of_lt (Nat.pow_lt_pow_right (by decide) h)
  have hmask : word &&& (1 <<< UInt32.ofNat k) = 0 ↔ word.toNat.testBit k = false := by
    rw [← UInt32.toNat_inj, UInt32.toNat_and, hshift, Nat.and_two_pow]
    cases word.toNat.testBit k <;> simp
  unfold readBit
  cases hbit : word.toNat.testBit k with
  | false => exact bne_eq_false_iff_eq.mpr (hmask.mpr hbit)
  | true => exact bne_iff_ne.mpr fun hzero => Bool.noConfusion (hbit.symm.trans (hmask.mp hzero))

end Interface

namespace Model

variable {m m' : Model} {o r w : Row} {gs : List Getter} {ds : Definitions} {name F : String}
  {b i j k l x top passes : Nat} {span : Span} {place : Nat → Nat}

/-! ### Getters of words -/

theorem exists_row_of_getters (h : m.getters i = .ok gs) : ∃ w, m.row i = .ok w := by
  unfold getters at h
  obtain ⟨w, hrow, -⟩ := bind_eq_ok.mp h
  exact ⟨w, hrow⟩

/-- A row that is no word has one getter, which reads no bit. -/
theorem getters_other (h : m.getters i = .ok gs) (hrow : m.row i = .ok w) (kind : w.kind ≠ .bitSet) :
    ∃ g, gs = [g] ∧ ∀ name F k, g ≠ .bit name F k := by
  unfold getters at h
  simp only [hrow, bind_eq_ok, Except.ok.injEq, exists_eq_left'] at h
  split at h
  · exact absurd (by assumption) kind
  all_goals
    obtain ⟨_, -, h⟩ := bind_eq_ok.mp h
    exact ⟨_, (pure_eq_ok.mp h).symm, fun _ _ _ => Getter.noConfusion⟩

/-- A word has one getter for each row that it owns, from the lowest bit on. -/
theorem getters_word (h : m.getters i = .ok gs) (hrow : m.row i = .ok w) (kind : w.kind = .bitSet) :
    gs[b]? = some (.bit name F k) ↔ ∃ start r, w.start = some start ∧ b < w.count ∧ m.row (start + b) = .ok r ∧
      r.name = name ∧ w.name = F ∧ k = b := by
  unfold getters at h
  simp only [hrow, bind_eq_ok, Except.ok.injEq, exists_eq_left', kind, pure_eq_ok] at h
  obtain ⟨span, hspan, bools, hbools, rfl⟩ := h
  obtain ⟨hlength, hget⟩ := Span.mapM_eq_ok hbools
  rw [List.getElem?_map, List.getElem?_zipIdx, Nat.zero_add, Option.map_map, Option.map_eq_some_iff]
  cases hstart : w.start with
  | none =>
    rw [Row.members, hstart] at hspan
    cases hspan
    simp [List.eq_nil_of_length_eq_zero hlength]
  | some start =>
    have howned : w.ownedCount = w.count := by rw [Row.ownedCount, kind]
    rw [Row.members_of_start hstart (by rw [kind]; decide), howned] at hspan
    obtain ⟨-, rfl⟩ := spanFrom_eq_ok.mp hspan
    constructor
    · rintro ⟨r, hr, hbit⟩
      cases hbit
      have hlt := (List.getElem?_eq_some_iff.mp hr).1
      exact ⟨start, r, rfl, by rwa [hlength] at hlt, hget _ r hr, rfl, rfl, rfl⟩
    · rintro ⟨_, r, ⟨⟩, hlt, hr, rfl, rfl, rfl⟩
      have hk : k < bools.length := by rwa [hlength]
      have hsame := hget k _ (List.getElem?_eq_getElem hk)
      rw [hr] at hsame
      exact ⟨r, by rw [List.getElem?_eq_getElem hk, ← Except.ok.inj hsame], rfl⟩

/-- The field of a word is a number of 32 bits. -/
theorem fieldType_word (hrow : m.row i = .ok w) (kind : w.kind = .bitSet) : m.fieldType i = .ok (.named "u32") := by
  unfold fieldType fieldTypeWithin
  rw [hrow]
  simp only [bind_eq_ok, Except.ok.injEq, exists_eq_left', kind]
  rfl

/-! ### Bits of members -/

/-- Whether row `l` is bit `p.2` of member `p.1` of a range. -/
def BitIs (m : Model) (span : Span) (p : Nat × Nat) (l : Nat) : Prop :=
  p.1 < span.length ∧ ∃ w start, m.row (span.start + p.1) = .ok w ∧ w.kind = .bitSet ∧ w.start = some start ∧
    p.2 < w.count ∧ l = start + p.2

theorem BitIs.row_eq {p : Nat × Nat} {l' : Nat} (h : m.BitIs span p l) (h' : m.BitIs span p l') : l = l' := by
  obtain ⟨-, w, start, hrow, -, hstart, -, rfl⟩ := h
  obtain ⟨-, w', start', hrow', -, hstart', -, rfl⟩ := h'
  obtain rfl := Except.ok.inj (hrow.symm.trans hrow')
  cases hstart.symm.trans hstart'
  rfl

theorem BitIs.bit_eq {p p' : Nat × Nat} (h : m.BitIs span p l) (h' : m.BitIs span p' l)
    (wellFormed : m.WellFormed top) : p = p' := by
  obtain ⟨-, w, start, hrow, hkind, hstart, hlt, rfl⟩ := h
  obtain ⟨-, w', start', hrow', hkind', hstart', hlt', heq⟩ := h'
  have howns : ∀ {w : Row} {start b : Nat}, w.kind = .bitSet → w.start = some start → b < w.count →
      w.Owns (start + b) := fun {w start b} hkind hstart hlt =>
    ⟨start, hstart, Nat.le_add_right _ _, by
      rw [Row.ownedCount, hkind]
      exact Nat.add_lt_add_left hlt start⟩
  have hsame := wellFormed.eq_of_owns hrow hrow' (howns hkind hstart hlt) (heq ▸ howns hkind' hstart' hlt')
    (by rw [hkind]; decide)
  have hmember : p.1 = p'.1 := Nat.add_left_cancel hsame
  rw [hmember] at hrow
  obtain rfl := Except.ok.inj (hrow.symm.trans hrow')
  cases hstart.symm.trans hstart'
  exact Prod.ext hmember (Nat.add_left_cancel heq)

/-- A bit of a member has a getter, which masks the bit of the member. -/
theorem BitIs.exists_getter {p : Nat × Nat} {s : StructDeclaration} {getters : List (List Getter)}
    (h : m.BitIs span p l) (hrow : m.row l = .ok r) (struct : m.structDeclaration name i = .ok s)
    (hspan : m.members i = .ok span) (hgetters : span.mapM m.getters = .ok getters) :
    ∃ w gs, m.row (span.start + p.1) = .ok w ∧ s.fields[p.1]? = some (w.name, .named "u32") ∧
      getters[p.1]? = some gs ∧ gs[p.2]? = some (.bit r.name w.name p.2) := by
  obtain ⟨hmember, w, start, hword, hkind, hstart, hlt, rfl⟩ := h
  obtain ⟨span', -, hspan', -, -, -, hlength, hfield⟩ := structDeclaration_eq_ok struct
  obtain rfl := Except.ok.inj (hspan.symm.trans hspan')
  obtain ⟨hcount, hget⟩ := Span.mapM_eq_ok hgetters
  have hf := List.getElem?_eq_getElem (hlength ▸ hmember : p.1 < s.fields.length)
  have hg := List.getElem?_eq_getElem (hcount ▸ hmember : p.1 < getters.length)
  obtain ⟨htype, row, hrow', hname⟩ := hfield _ _ hf
  obtain rfl := Except.ok.inj (hword.symm.trans hrow')
  have hu32 := Except.ok.inj (htype.symm.trans (fieldType_word hword hkind))
  refine ⟨w, _, hword, ?_, hg, (getters_word (hget _ _ hg) hword hkind).mpr
    ⟨start, r, hstart, hlt, hrow, rfl, rfl, rfl⟩⟩
  rw [hf]
  exact congrArg some (Prod.ext hname.symm hu32)

/-- Whether member `j` of a struct is a word of booleans, with its name and what it holds. -/
def HasWord (m : Model) (span : Span) (s : StructDeclaration) (j : Nat) (F : String) (word : UInt32) : Prop :=
  s.fields[j]? = some (F, .named "u32") ∧ ∃ w, m.row (span.start + j) = .ok w ∧ w.kind = .bitSet ∧ w.name = F ∧
    w.value = .bitSet word

/-- Whether the struct of an object of a solved model reads the booleans that the object has had: those are the
boolean fields of object `o` in model `m`; `getters` are the getters of the struct, member by member, and `bit` tells
for a boolean field a member and a bit. -/
structure ReadsBooleans (m : Model) (o : Row) (m' : Model) (span : Span) (s : StructDeclaration)
    (getters : List (List Getter)) (bit : Nat → Nat × Nat) : Prop where
  /-- A boolean field has a getter, which reads it from a word of the struct. -/
  reads : ∀ x r, m.IsBoolean o x r → (bit x).2 < 32 ∧ ∃ F word, m'.HasWord span s (bit x).1 F word ∧
    (∃ gs, getters[(bit x).1]? = some gs ∧ gs[(bit x).2]? = some (.bit r.name F (bit x).2)) ∧
    (readBit word (bit x).2 = true ↔ r.value = .bool true)
  once : ∀ x r y r', m.IsBoolean o x r → m.IsBoolean o y r' → bit x = bit y → x = y
  /-- No other getter reads a bit. -/
  only : ∀ j gs b name F k, getters[j]? = some gs → gs[b]? = some (.bit name F k) →
    ∃ x r, m.IsBoolean o x r ∧ bit x = (j, b)
  /-- No other bit is set. -/
  clear : ∀ j F word b, m'.HasWord span s j F word → b < 32 → readBit word b = true →
    ∃ x r, m.IsBoolean o x r ∧ bit x = (j, b)
  /-- Fields of different names lead to members of different names, so that a name stands for one word. -/
  distinct : ((m.fields o).map (·.name)).Nodup → (s.fields.map (·.1)).Nodup

section

variable (solved : m.Solved m' passes place) (whole : m.Whole top) (whole' : m'.Whole top) (ordered : m.Ordered)
  (object : m.IsObject i o) (noWord : ∀ x r, o.Owns x → m.row x = .ok r → r.kind ≠ .bitSet)
  (hspan : m'.members (place i) = .ok span)

include solved object hspan

theorem Solved.owns_iff_member : (m.foldedRow o).Owns j ↔ ∃ k < span.length, j = span.start + k := by
  rw [members_eq (solved.row i o object.1)] at hspan
  exact Row.owns_iff hspan j

/-- A boolean field is a bit of a member. -/
theorem Solved.exists_bit (boolean : m.IsBoolean o x r) : ∃ p, m'.BitIs span p (place x) := by
  obtain ⟨_, w, howns, hrow, hkind, start, -, hstart, hle, hlt, -⟩ := solved.bit object boolean
  obtain ⟨j, hj, rfl⟩ := (solved.owns_iff_member object hspan).mp howns
  obtain ⟨b, hb⟩ := Nat.exists_eq_add_of_le hle
  exact ⟨(j, b), hj, w, start, hrow, hkind, hstart, by omega, hb⟩

include whole in
/-- The names of the fields of a struct are those of the rows of its object. -/
theorem Solved.map_name {s : StructDeclaration} (struct : m'.structDeclaration name (place i) = .ok s) :
    s.fields.map (·.1) = (m'.fields (m.foldedRow o)).map (·.name) := by
  obtain ⟨span', getters, hspan', -, -, -, hlength, hfield⟩ := structDeclaration_eq_ok struct
  obtain rfl := Except.ok.inj (hspan.symm.trans hspan')
  cases hstart : o.start with
  | none =>
    have hempty : m'.fields (m.foldedRow o) = [] := by
      rw [fields, foldedRow_start, hstart]
      rfl
    rw [members_eq (solved.row i o object.1)] at hspan
    have hnone : (m.foldedRow o).members = .ok .empty := by
      rw [Row.members, foldedRow_start, hstart]
    obtain rfl := Except.ok.inj (hnone.symm.trans hspan)
    rw [hempty, List.eq_nil_of_length_eq_zero hlength]
    rfl
  | some start =>
    obtain ⟨hmembers, hrows⟩ := solved.members whole object hstart
    obtain rfl := Except.ok.inj (hmembers.symm.trans hspan)
    apply List.ext_getElem
    · rw [List.length_map, List.length_map, hlength]
    · intro k hk hk'
      rw [List.length_map] at hk hk'
      obtain ⟨-, row, hrow, hname⟩ := hfield k _ (List.getElem?_eq_getElem hk)
      obtain rfl := Except.ok.inj (hrow.symm.trans (hrows k _ (List.getElem?_eq_getElem hk')))
      rw [List.getElem_map, List.getElem_map, hname]

include whole whole' ordered noWord

/-- A bit of a member is a boolean field, and it is set iff the boolean is true. -/
theorem Solved.boolean_of_bit {p : Nat × Nat} (h : m'.BitIs span p l) : p.2 < 32 ∧ ∃ x r, m.IsBoolean o x r ∧
    place x = l ∧ m'.row l = .ok r ∧ ∃ w word, m'.row (span.start + p.1) = .ok w ∧ w.kind = .bitSet ∧
      w.value = .bitSet word ∧ word.toNat.testBit p.2 = decide (r.value = .bool true) := by
  obtain ⟨hmember, w, start, hrow, hkind, hstart, hlt, rfl⟩ := h
  have howns := (solved.owns_iff_member object hspan).mpr ⟨p.1, hmember, rfl⟩
  obtain ⟨start', word, hstart', hvalue, hcount, hbits, -⟩ :=
    solved.bits whole whole' ordered object noWord howns hrow hkind
  cases hstart.symm.trans hstart'
  obtain ⟨x, r, hboolean, hplace, hr, htest⟩ := hbits p.2 hlt
  exact ⟨Nat.lt_of_lt_of_le hlt hcount, x, r, hboolean, hplace, hr, w, word, hrow, hkind, hvalue, htest⟩

/-- A set bit of a word is one of its booleans. -/
theorem Solved.bit_of_read {s : StructDeclaration} {word : UInt32} (h : m'.HasWord span s j F word)
    (fields : s.fields.length = span.length) (hb : b < 32) (read : readBit word b = true) :
    ∃ l, m'.BitIs span (j, b) l := by
  obtain ⟨hfield, w, hrow, hkind, -, hvalue⟩ := h
  have hmember : j < span.length := fields ▸ (List.getElem?_eq_some_iff.mp hfield).1
  have howns := (solved.owns_iff_member object hspan).mpr ⟨j, hmember, rfl⟩
  obtain ⟨start, word', hstart, hvalue', -, -, hclear⟩ :=
    solved.bits whole whole' ordered object noWord howns hrow hkind
  cases hvalue.symm.trans hvalue'
  rw [readBit_eq word hb] at read
  exact ⟨start + b, hmember, w, start, hrow, hkind, hstart, hclear b read, rfl⟩

end

/-- The struct of an object of a solved model reads the booleans that the object has had. -/
theorem Solved.readsBooleans {s : StructDeclaration} (solved : m.Solved m' passes place) (whole : m.Whole top)
    (whole' : m'.Whole top) (ordered : m.Ordered) (object : m.IsObject i o)
    (noWord : ∀ x r, o.Owns x → m.row x = .ok r → r.kind ≠ .bitSet)
    (struct : m'.structDeclaration name (place i) = .ok s) : ∃ span getters bit,
      m'.members (place i) = .ok span ∧ span.mapM m'.getters = .ok getters ∧ s.getters = getters.flatten ∧
      ReadsBooleans m o m' span s getters bit := by
  obtain ⟨span, getters, hspan, hgetters, hflatten, -, hlength, -⟩ := structDeclaration_eq_ok struct
  obtain ⟨hcount, hget⟩ := Span.mapM_eq_ok hgetters
  -- A boolean field is the bit at one place, and the boolean field of its place.
  have hexists : ∀ x, (∃ r, m.IsBoolean o x r) → ∃ p, m'.BitIs span p (place x) := by
    rintro x ⟨r, hx⟩
    exact solved.exists_bit object hspan hx
  choose! bit hbit using hexists
  have hfind : ∀ p l, m'.BitIs span p l → ∃ x r, m.IsBoolean o x r ∧ bit x = p := by
    intro p l hp
    obtain ⟨-, x, r, hx, rfl, -⟩ := solved.boolean_of_bit whole whole' ordered object noWord hspan hp
    exact ⟨x, r, hx, (hbit x ⟨r, hx⟩).bit_eq hp whole'.toWellFormed⟩
  refine ⟨span, getters, bit, hspan, hgetters, hflatten, ?_⟩
  exact
    { reads := by
        intro x r hx
        have hp := hbit x ⟨r, hx⟩
        obtain ⟨hlt, -, r', -, -, hr', w, word, hrow, hkind, hvalue, htest⟩ :=
          solved.boolean_of_bit whole whole' ordered object noWord hspan hp
        have hr := solved.row x r hx.2.1
        rw [foldedRow_of_ne m (by rw [hx.2.2]; decide)] at hr
        obtain rfl := Except.ok.inj (hr.symm.trans hr')
        obtain ⟨w', gs, hrow', hf, hgs, hg⟩ := hp.exists_getter hr struct hspan hgetters
        obtain rfl := Except.ok.inj (hrow.symm.trans hrow')
        refine ⟨hlt, w.name, word, ⟨hf, w, hrow, hkind, rfl, hvalue⟩, ⟨gs, hgs, hg⟩, ?_⟩
        rw [readBit_eq word hlt, htest, decide_eq_true_iff]
      once := by
        intro x r y r' hx hy heq
        have hplace := (hbit x ⟨r, hx⟩).row_eq (heq ▸ hbit y ⟨r', hy⟩)
        exact solved.injective x y (lt_size_of_row hx.2.1) (lt_size_of_row hy.2.1) hplace
      only := by
        intro j gs b name F k hgs hg
        have hj : j < span.length := hcount ▸ (List.getElem?_eq_some_iff.mp hgs).1
        have hmember := hget j gs hgs
        obtain ⟨w, hrow⟩ := exists_row_of_getters hmember
        by_cases hkind : w.kind = .bitSet
        · obtain ⟨start, -, hstart, hlt, -⟩ := (getters_word hmember hrow hkind).mp hg
          exact hfind (j, b) (start + b) ⟨hj, w, start, hrow, hkind, hstart, hlt, rfl⟩
        · obtain ⟨g, rfl, hother⟩ := getters_other hmember hrow hkind
          exact absurd (List.mem_singleton.mp (List.mem_of_getElem? hg)).symm (hother name F k)
      clear := by
        intro j F word b hword hb hread
        obtain ⟨l, hl⟩ := solved.bit_of_read whole whole' ordered object noWord hspan hword hlength hb hread
        exact hfind _ _ hl
      distinct := by
        intro hnames
        rw [solved.map_name whole object hspan struct]
        exact solved.names_nodup whole ordered object hnames }

end Model

end ObjectPack
