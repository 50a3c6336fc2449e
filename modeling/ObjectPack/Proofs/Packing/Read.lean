import Mathlib.Algebra.Group.Int.Defs
import Mathlib.Algebra.Group.Nat.Defs
import ObjectPack.Proofs.Link.View
import ObjectPack.Proofs.Packing.Unit

/-!
# Packed rows read back

A reader that knows the layout of a model starts at the root of a data unit, looks at the rows of the
root object at their offsets and follows the slots to further blocks (`Model.Finds`).  In every block
that is found this way, every row reads as its value (`Row.ReadAt`): numbers are decoded, texts stand
where their slots lead, and slots of objects and of collections lead to blocks (`UnitPacked.read`).
-/

namespace ObjectPack

open Outcome WriteStep

/-! ### Integers -/

namespace Scalar

/-- The value of an integer; a float counts as its bits. -/
def toInt : Scalar → Int
  | .i8 v => v.toInt
  | .u8 v => v.toNat
  | .i16 v => v.toInt
  | .u16 v => v.toNat
  | .i32 v => v.toInt
  | .u32 v => v.toNat
  | .i64 v => v.toInt
  | .u64 v => v.toNat
  | .f32 bits => bits.toNat
  | .f64 bits => bits.toNat

/-- Whether integers of a format have a sign. -/
def Format.isSigned : Format → Bool
  | .i8 | .i16 | .i32 | .i64 => true
  | _ => false

/-- Whether an integer is in the range of a format. -/
def Format.InRange (f : Format) (v : Int64) : Prop :=
  if f.isSigned then -2 ^ (8 * f.width - 1) ≤ v.toInt ∧ v.toInt < 2 ^ (8 * f.width - 1)
  else 0 ≤ v.toInt ∧ v.toInt < 2 ^ (8 * f.width)

theorem toInt_lowBits {w : Nat} (positive : 0 < w) (narrow : w ≤ 64) {v : Int64}
    (low : -2 ^ (w - 1) ≤ v.toInt) (high : v.toInt < 2 ^ (w - 1)) :
    (BitVec.ofNat w v.toUInt64.toNat).toInt = v.toInt := by
  have hdvd : 2 ^ w ∣ 2 ^ 64 := Nat.pow_dvd_pow 2 narrow
  have hv : v.toInt = (v.toUInt64.toNat : Int).bmod (2 ^ 64) := v.toBitVec.toInt_eq_toNat_bmod
  have hself := BitVec.toInt_ofInt_eq_self positive low high
  rw [BitVec.toInt_ofInt, hv, Int.bmod_bmod_of_dvd hdvd, ← hv] at hself
  rw [BitVec.toInt_ofNat', hself]

theorem toNat_lowBits {w : Nat} {v : Int64} (low : 0 ≤ v.toInt) (high : v.toInt < 2 ^ w) :
    ((BitVec.ofNat w v.toUInt64.toNat).toNat : Int) = v.toInt := by
  have hv : v.toInt = v.toUInt64.toNat := by
    have hcond : v.toInt = _ := v.toBitVec.toInt_eq_toNat_cond
    have hlt : v.toBitVec.toNat < 2 ^ 64 := v.toBitVec.isLt
    show _ = (v.toBitVec.toNat : Int)
    split at hcond
    · exact hcond
    · omega
  rw [hv] at high ⊢
  rw [BitVec.toNat_ofNat, Nat.mod_eq_of_lt]
  exact_mod_cast high

/-- A value in the range of a format survives being packed in that format. -/
theorem toInt_ofBits {f : Format} {v : Int64} (h : f.InRange v) :
    (ofBits f v.toUInt64.toNat).toInt = v.toInt := by
  unfold Format.InRange at h
  cases f
  case i8 => exact toInt_lowBits (by decide) (by decide) h.1 h.2
  case i16 => exact toInt_lowBits (by decide) (by decide) h.1 h.2
  case i32 => exact toInt_lowBits (by decide) (by decide) h.1 h.2
  case i64 => exact toInt_lowBits (by decide) (by decide) h.1 h.2
  all_goals exact toNat_lowBits h.1 h.2
end Scalar

/-! ### Reading numbers and texts -/

namespace Container.UnitReader

variable {view : UnitReader} {place : Nat}

/-- Whether a scalar is read at a place of a data unit. -/
def ReadsAt (view : UnitReader) (place : Nat) (s : Scalar) : Prop :=
  ∃ position : UInt32, position.toNat = place ∧ view.read s.format position = .ok s

/-- What stands in a data unit is read there. -/
theorem readsAt_of_hasAt {s : Scalar} (h : view.bytes.HasAt place (s.encode view.endian))
    (fits : view.bytes.length < wordLimit) : view.ReadsAt place s := by
  have hslice := h.slice
  have hne : s.encode view.endian ≠ [] := by
    intro hnil
    have hwidth := Scalar.length_encode view.endian s
    rw [hnil] at hwidth
    exact absurd s.format.width_pos (hwidth ▸ Nat.lt_irrefl 0)
  have hinside := h.le_length hne
  have hposition : (UInt32.ofNat place).toNat = place :=
    UInt32.toNat_ofNat_of_lt' (show place < wordLimit by omega)
  refine ⟨UInt32.ofNat place, hposition, ?_⟩
  have hbytes := List.take_append_drop (s.encode view.endian).length (view.bytes.drop place)
  rw [hslice] at hbytes
  unfold read
  rw [hposition, ← hbytes, Scalar.decode?_encode]

/-- Whether two words are read side by side. -/
def ReadsWords (view : UnitReader) (place : Nat) (first second : UInt32) : Prop :=
  view.ReadsAt place (.u32 first) ∧ view.ReadsAt (place + 4) (.u32 second)

theorem readsWords_of_hasAt {first second : UInt32}
    (h : view.bytes.HasAt place (view.endian.twoWords first second))
    (fits : view.bytes.length < wordLimit) : view.ReadsWords place first second := by
  have hlength := Endian.length_twoWords view.endian first second
  have hfirst := Bytes.hasAt_append [] ((Scalar.u32 first).encode view.endian)
    ((Scalar.u32 second).encode view.endian)
  have hsecond := Bytes.hasAt_append ((Scalar.u32 first).encode view.endian)
    ((Scalar.u32 second).encode view.endian) []
  rw [List.append_nil, Scalar.length_encode] at hsecond
  refine ⟨readsAt_of_hasAt (h.trans hfirst ?_) fits, readsAt_of_hasAt (h.trans hsecond ?_) fits⟩
  · rw [hlength, Scalar.length_encode]
    show 0 + 4 ≤ 8
    omega
  · rw [hlength, Scalar.length_encode]
    show 4 + 4 ≤ 8
    omega

end Container.UnitReader

theorem PooledText.length_bytes (t : PooledText) : t.bytes.length = t.byteCount := rfl

theorem PooledText.charCount_le (t : PooledText) : t.charCount ≤ t.byteCount := by
  have hencode : ∀ l : List Char, l.length ≤ l.utf8Encode.size := by
    intro l
    induction l with
    | nil => exact Nat.le_refl _
    | cons c l ih =>
      have hpos := c.utf8Size_pos
      have hsize : [c].utf8Encode.size = c.utf8Size := by
        rw [List.utf8Encode_singleton]
        simp
      rw [List.utf8Encode_cons, ByteArray.size_append, List.length_cons]
      omega
  have h := hencode t.text.toList
  rwa [String.length_toList, String.utf8Encode_toList] at h

/-! ### Reading rows -/

/-- Whether a reader finds the value of a row at an offset of the block that stands at `base`.  Where
the value of an object or of the elements of a collection stands is not said here. -/
def Row.ReadAt (m : Model) (registry : Registry) (view : Container.UnitReader) (base offset : Nat)
    (r : Row) : Prop :=
  match r.value with
  | .bool value => view.ReadsAt (base + offset) (.u8 (if value then 1 else 0))
  | .bitSet word => view.ReadsAt (base + offset) (.u32 word)
  | .scalar value => view.ReadsAt (base + offset) value
  | .enum enumeration value => ∃ s, s.format = enumeration.format ∧ view.ReadsAt (base + offset) s ∧
    (enumeration.format.InRange value → s.toInt = value.toInt)
  | .struct value => view.bytes.HasAt (base + offset) (allBytesAt view.endian offset value.writes)
  | .dataUnit signature => view.ReadsWords (base + offset) (registry.locate signature).container
    (registry.locate signature).entry
  | .null =>
    match r.kind with
    | .string => view.bytes.HasAt (base + offset) (Bytes.zeros Pointer.slotSize) ∧
      view.ReadsWords (base + offset + Pointer.slotSize) 0 0
    | .object => view.bytes.HasAt (base + offset) (Bytes.zeros Pointer.slotSize)
    | .dataUnit => view.ReadsWords (base + offset) Location.unknown.container Location.unknown.entry
    | _ => False
  | .present =>
    match r.kind with
    | .string => ∃ index text, r.start = some index ∧ m.texts.entry index = .ok text ∧
      (∃ place, Draft.Answers view (base + offset) (some place) ∧
        view.bytes.HasAt place (text.bytes ++ [0])) ∧
      ∃ byteCount charCount : UInt32, byteCount.toNat = text.bytes.length ∧
        charCount.toNat = text.text.length ∧
        view.ReadsWords (base + offset + Pointer.slotSize) byteCount charCount
    | .object => True
    | .array | .dictionary =>
      view.ReadsWords (base + offset + Pointer.slotSize) r.countWord r.countWord ∧
      (r.countWord = 0 → view.bytes.HasAt (base + offset) (Bytes.zeros Pointer.slotSize))
    | _ => False

namespace Model

/-- Whether a reader finds the block of a row at a place: the root of the data unit is the block of row
`root`, and a slot of a row leads to the block of that row. -/
inductive Finds (m : Model) (view : Container.UnitReader) (root : Nat) : Nat → Nat → Prop
  | root {place : UInt32} (found : view.root? = some place) : Finds m view root root place.toNat
  | slot {owner base k offset place : Nat} {span : Span} {offsets : List Nat} {row : Row}
      (found : Finds m view root owner base) (members : m.members owner = .ok span)
      (layout : m.memberOffsets owner = .ok offsets) (hoffset : offsets[k]? = some offset)
      (hrow : m.row (span.start + k) = .ok row) (refers : row.HasBlock)
      (answers : Draft.Answers view (base + offset) (some place)) :
      Finds m view root (span.start + k) place

/-- Whether a reader finds what row `owner` owns in the block at `base`: every row at its offset, with
its value, and a block where it has one. -/
def ReadsBlock (m : Model) (registry : Registry) (view : Container.UnitReader) (owner base : Nat) :
    Prop :=
  ∃ span offsets, m.members owner = .ok span ∧ m.memberOffsets owner = .ok offsets ∧
    offsets.length = span.length ∧ ∀ k offset, offsets[k]? = some offset → ∃ row,
      m.row (span.start + k) = .ok row ∧ row.ReadAt m registry view base offset ∧
      (row.HasBlock → ∃ place, Draft.Answers view (base + offset) (some place))

end Model

namespace Packing

variable {m : Model} {registry : Registry} {d : Draft} {unit : Nat} {view : Container.UnitReader}

/-- A null text reads as zeros. -/
theorem readsNullText {place : Nat} (h : view.bytes.HasAt place (Bytes.zeros 16))
    (small : view.bytes.length < wordLimit) :
    view.bytes.HasAt place (Bytes.zeros Pointer.slotSize) ∧
      view.ReadsWords (place + Pointer.slotSize) 0 0 := by
  have hslot : Bytes.HasAt (Bytes.zeros 16) 0 (Bytes.zeros Pointer.slotSize) :=
    Bytes.hasAt_append [] (Bytes.zeros 8) (Bytes.zeros 8)
  have hwords : Bytes.HasAt (Bytes.zeros 16) 8 (view.endian.twoWords 0 0) := by
    cases view.endian <;> exact Bytes.hasAt_append (Bytes.zeros 8) (Bytes.zeros 8) []
  refine ⟨h.trans hslot (by decide), Container.UnitReader.readsWords_of_hasAt ?_ small⟩
  refine h.trans hwords ?_
  rw [Endian.length_twoWords]
  decide

/-- What is packed at a place of a data unit is read there. -/
theorem readAt_of_packedAs {scope : Scope} {place : Reference → Nat} {base offset i : Nat} {r : Row}
    (fits : r.Fits) (small : view.bytes.length < wordLimit)
    (texts : ∀ index t, scope.texts index → m.texts.entry index = .ok t →
      view.bytes.HasAt (place t.reference) (t.bytes ++ [0]))
    (h : r.PackedAs m registry view.endian scope (fun offset => view.bytes.HasAt (base + offset))
      (fun offset target => Draft.Answers view (base + offset) (some (place target))) offset i) :
    r.ReadAt m registry view base offset := by
  unfold Row.Fits at fits
  unfold Row.ReadAt
  cases hvalue : r.value with
  | present =>
    rw [hvalue] at fits
    cases hkind : r.kind <;> simp only [hkind, Kind.isReferenced, reduceCtorEq] at fits
    case string =>
      obtain ⟨index, t, hstart, hentry, hused, hrefers, hwords⟩ := h.text hvalue hkind
      have htext := texts index t hused hentry
      have hinside := htext.le_length (List.append_ne_nil_of_right_ne_nil _ (List.cons_ne_nil _ _))
      rw [List.length_append, PooledText.length_bytes] at hinside
      have hbytes : (UInt32.ofNat t.byteCount).toNat = t.byteCount :=
        UInt32.toNat_ofNat_of_lt' (show t.byteCount < wordLimit by omega)
      have hchars : (UInt32.ofNat t.charCount).toNat = t.charCount := by
        have hle := t.charCount_le
        exact UInt32.toNat_ofNat_of_lt' (show t.charCount < wordLimit by omega)
      refine ⟨index, t, hstart, hentry, ⟨place t.reference, hrefers, htext⟩, _, _, hbytes, hchars, ?_⟩
      exact Container.UnitReader.readsWords_of_hasAt (Nat.add_assoc .. ▸ hwords) small
    case object => trivial
    case array =>
      obtain ⟨hcount, hempty⟩ := h.count hvalue (Or.inl hkind)
      rw [← Nat.add_assoc] at hcount
      exact ⟨Container.UnitReader.readsWords_of_hasAt hcount small, hempty⟩
    case dictionary =>
      obtain ⟨hcount, hempty⟩ := h.count hvalue (Or.inr hkind)
      rw [← Nat.add_assoc] at hcount
      exact ⟨Container.UnitReader.readsWords_of_hasAt hcount small, hempty⟩
  | null =>
    obtain ⟨b, hb, hholds⟩ := h.plain (by rw [hvalue]; exact Payload.noConfusion)
    rw [Row.plain?, hvalue] at hb
    cases hkind : r.kind <;> simp only [hkind, reduceCtorEq, Option.some.injEq] at hb <;> subst hb
    case string => exact readsNullText hholds small
    case object => exact hholds
    case dataUnit => exact Container.UnitReader.readsWords_of_hasAt hholds small
  | struct value => exact h.holds_plain (by rw [Row.plain?, hvalue])
  | enum enumeration value =>
    have hholds := h.holds_plain (by rw [Row.plain?, hvalue])
    exact ⟨enumeration.pack value, Scalar.format_ofBits _ _,
      Container.UnitReader.readsAt_of_hasAt hholds small, Scalar.toInt_ofBits⟩
  | dataUnit signature =>
    have hholds := h.holds_plain (by rw [Row.plain?, hvalue])
    exact Container.UnitReader.readsWords_of_hasAt hholds small
  | _ =>
    -- What is left are numbers.
    have hholds := h.holds_plain (by rw [Row.plain?, hvalue])
    exact Container.UnitReader.readsAt_of_hasAt hholds small

/-! ### Reading data units -/

/-- Whether what row `owner` owns is packed at a place of a data unit. -/
def BlockRead (m : Model) (registry : Registry) (scope : Scope) (d : Draft) (unit : Nat)
    (view : Container.UnitReader) (owner base : Nat) : Prop :=
  ∃ span starts, m.OffsetsOf owner span starts ∧ ∀ k start, starts[k]? = some start →
    ∃ row, m.row (span.start + k) = .ok row ∧
      row.PackedAs m registry view.endian scope (fun offset => view.bytes.HasAt (base + offset))
        (fun offset target => Draft.Answers view (base + offset) (some (d.placeIn unit target)))
        start (span.start + k)

/-- A block that is filled is found at its place. -/
theorem BlockFilled.read {scope : Scope} {reference : Reference} {owner : Nat}
    (filled : BlockFilled m registry scope d unit reference owner) (views : d.Views unit view)
    (absolute : d.encoding = .absolute) :
    BlockRead m registry scope d unit view owner (d.placeIn unit reference) := by
  obtain ⟨block, hblock, hreference, body, hbody, hunit, span, starts, hoffsets, hpacked⟩ := filled
  refine ⟨span, starts, hoffsets, fun k start hk => ?_⟩
  obtain ⟨row, hrow, hrows⟩ := hpacked k start hk
  refine ⟨row, hrow, ?_⟩
  rw [views.endian, ← hreference]
  refine hrows.mono ⟨fun _ _ h => h, fun _ h => h, fun _ h => h⟩ ?_ ?_
  · intro offset b hholds
    exact views.holds block hblock body hbody hunit offset b hholds
  · intro offset target hsite
    refine views.sites block hblock body hbody hunit _ hsite ?_
    unfold Draft.LooksNull
    rw [absolute]
    exact not_false

/-- Whether a reader finds the object of row `root` at the root of a data unit, whatever is found from
there reads as what the model holds, and all data units referred to are among some. -/
structure UnitRead (m : Model) (registry : Registry) (met : List Digest)
    (view : Container.UnitReader) (root : Nat) : Prop where
  found : ∃ place, view.root? = some place
  blocks : ∀ owner base, m.Finds view root owner base → m.ReadsBlock registry view owner base
  units : ∀ owner base, m.Finds view root owner base → ∀ span k row, m.members owner = .ok span →
    k < span.length → m.row (span.start + k) = .ok row → ∀ s, row.value = .dataUnit s → s ∈ met

/-- A reader gives one answer. -/
theorem answers_unique {place : Nat} {found found' : Option Nat}
    (h : Draft.Answers view place found) (h' : Draft.Answers view place found') : found = found' := by
  obtain ⟨site, hsite, target, hresolve, rfl⟩ := h
  obtain ⟨site', hsite', target', hresolve', rfl⟩ := h'
  obtain rfl : site = site' := UInt32.toNat_inj.mp (hsite.trans hsite'.symm)
  rw [hresolve] at hresolve'
  cases hresolve'
  rfl

/-- A block that is read has the layout of the model. -/
theorem BlockRead.row {scope : Scope} {owner base : Nat} {span : Span} {offsets : List Nat}
    (h : BlockRead m registry scope d unit view owner base) (members : m.members owner = .ok span)
    (layout : m.memberOffsets owner = .ok offsets) : offsets.length = span.length ∧
      ∀ k offset, offsets[k]? = some offset → ∃ row, m.row (span.start + k) = .ok row ∧
        row.PackedAs m registry view.endian scope (fun offset => view.bytes.HasAt (base + offset))
          (fun offset target => Draft.Answers view (base + offset) (some (d.placeIn unit target)))
          offset (span.start + k) := by
  obtain ⟨span', starts, hoffsets, hrows⟩ := h
  have hlayout := hoffsets.memberOffsets
  obtain ⟨hmembers, hlength, -⟩ := hoffsets
  rw [members] at hmembers
  rw [layout] at hlayout
  cases hmembers
  cases hlayout
  exact ⟨hlength, hrows⟩

/-- A text that is marked in a data unit stands at the place of its reference. -/
theorem MarksText.read {t : PooledText} (h : d.MarksText unit t) (views : d.Views unit view) :
    view.bytes.HasAt (d.placeIn unit t.reference) (t.bytes ++ [0]) := by
  obtain ⟨block, hblock, body, hbody, hunit, mark, hmark, hreference, hholds⟩ := h
  rw [← hreference, views.marks block hblock body hbody hunit mark hmark]
  exact views.holds block hblock body hbody hunit _ _ hholds

/-- A packed data unit can be read. -/
theorem UnitPacked.read {met : List Digest} {signature : Digest} {root : Nat}
    (fits : ∀ i row, m.row i = .ok row → row.Fits)
    (packed : UnitPacked m registry met d unit signature root) (views : d.Views unit view)
    (absolute : d.encoding = .absolute) : UnitRead m registry met view root := by
  obtain ⟨made, used, reference, hunit, hroot, hfilled, htexts⟩ := packed
  obtain ⟨place, hplace, hstands⟩ := views.root _ hunit reference rfl
  have hread := fun b hb => (hfilled b hb).read views absolute
  have htext : ∀ index t, index ∈ used → m.texts.entry index = .ok t →
      view.bytes.HasAt (d.placeIn unit t.reference) (t.bytes ++ [0]) := by
    intro index t hused hentry
    obtain ⟨t', hentry', hmarks⟩ := htexts index hused
    rw [hentry] at hentry'
    cases hentry'
    exact MarksText.read hmarks views
  -- What is found is the place of a block that has been made.
  have hfinds : ∀ owner base, m.Finds view root owner base →
      ∃ r, (r, owner) ∈ made ∧ base = d.placeIn unit r := by
    intro owner base hfound
    induction hfound with
    | root found =>
      rw [hplace] at found
      cases found
      exact ⟨reference, hroot, hstands⟩
    | slot _ members layout hoffset hrow refers answers ih =>
      obtain ⟨r, hr, rfl⟩ := ih
      obtain ⟨row', hrow', hpacked⟩ := ((hread _ hr).row members layout).2 _ _ hoffset
      rw [hrow] at hrow'
      cases hrow'
      obtain ⟨target, hmade, hrefers⟩ := hpacked.block refers
      exact ⟨target, hmade, Option.some.inj (answers_unique answers hrefers)⟩
  refine ⟨⟨place, hplace⟩, fun owner base hfound => ?_, fun owner base hfound => ?_⟩
  · obtain ⟨r, hr, rfl⟩ := hfinds owner base hfound
    obtain ⟨span, starts, hoffsets, hrows⟩ := hread _ hr
    refine ⟨span, starts, hoffsets.1, hoffsets.memberOffsets, hoffsets.2.1, fun k offset hk => ?_⟩
    obtain ⟨row, hrow, hpacked⟩ := hrows k offset hk
    refine ⟨row, hrow, readAt_of_packedAs (fits _ row hrow) views.fits htext hpacked, ?_⟩
    intro hblock
    obtain ⟨target, -, hrefers⟩ := hpacked.block hblock
    exact ⟨_, hrefers⟩
  · intro span k row hmembers hk hrow s hvalue
    obtain ⟨r, hr, rfl⟩ := hfinds owner base hfound
    obtain ⟨span', starts, hoffsets, hrows⟩ := hread _ hr
    have hmembers' := hoffsets.1
    rw [hmembers] at hmembers'
    cases hmembers'
    have hlt : k < starts.length := hoffsets.2.1 ▸ hk
    obtain ⟨row', hrow', hpacked⟩ := hrows k _ (List.getElem?_eq_getElem hlt)
    rw [hrow] at hrow'
    cases hrow'
    exact hpacked.unit s hvalue

/-! ### Reading containers -/

/-- Every data unit of a packed model can be read. -/
theorem ModelPacked.read {met : List Digest} {reader : Container.Reader}
    (packed : ModelPacked m registry met d) (fits : ∀ i row, m.row i = .ok row → row.Fits)
    (absolute : d.encoding = .absolute) (views : ∀ unit < d.units.length, ∃ view,
      reader.unit? unit = some view ∧ d.Views unit view) {u : DraftUnit}
    (hu : d.units[unit]? = some u) : ∃ view root, reader.unit? unit = some view ∧
      view.endian = d.endian ∧ m.HasUnit u.signature root ∧ UnitRead m registry met view root := by
  obtain ⟨view, hview, hreads⟩ := views unit (List.getElem?_eq_some_iff.mp hu).1
  obtain ⟨i, row, root, hrow, hvalue, hstart, hunit⟩ := packed.packed unit u hu
  exact ⟨view, root, hview, hreads.endian, ⟨i, row, hrow, hvalue, hstart⟩,
    hunit.read fits hreads absolute⟩

/-- Whether some collection has elements but is said to have none: its count is a multiple of the
number of words. -/
def LosesCount (m : Model) : Prop :=
  ∃ i row, m.row i = .ok row ∧ (row.kind = .array ∨ row.kind = .dictionary) ∧ row.count ≠ 0 ∧
    row.countWord = 0

/-- A row that is present and owns rows has a block. -/
theorem hasBlock_of_owns {row : Row} {i j : Nat} (hrow : m.row i = .ok row) (fits : row.Fits)
    (present : row.value = .present) (owns : row.Owns j) (counts : ¬ LosesCount m) :
    row.HasBlock := by
  obtain ⟨start, -, hle, hlt⟩ := owns
  have hcollection : row.kind = .array ∨ row.kind = .dictionary → row.count ≠ 0 → row.HasBlock :=
    fun hkind hcount => ⟨present, Or.inr ⟨hkind, fun hzero =>
      counts ⟨i, row, hrow, hkind, hcount, hzero⟩⟩⟩
  unfold Row.Fits at fits
  rw [present] at fits
  unfold Row.ownedCount at hlt
  cases hkind : row.kind <;> simp only [hkind, Kind.isReferenced, reduceCtorEq] at fits hlt
  case string => omega
  case object => exact ⟨present, Or.inl hkind⟩
  case array => exact hcollection (Or.inl hkind) (by omega)
  case dictionary => exact hcollection (Or.inr hkind) (by omega)

/-- A property of blocks that passes on to the blocks that are referred to, and with data units to those that they
start with, comes to the block of every row that belongs to the data unit of a top row. -/
theorem blocks_of_reaches {B : Nat → Prop} {U : Digest → Prop} {top i : Nat} (wellFormed : m.WellFormed top)
    (counts : ¬ LosesCount m) (topMet : ∃ row s, m.row top = .ok row ∧ row.value = .dataUnit s ∧ U s)
    (owned : ∀ i j owner row, B i → m.row i = .ok owner → owner.Owns j → m.row j = .ok row →
      (row.HasBlock → B j) ∧ ∀ s, row.value = .dataUnit s → U s)
    (rooted : ∀ s, U s → ∃ root, m.HasUnit s root ∧ B root) (h : m.Reaches top i) :
    ∀ row, m.row i = .ok row → (row.HasBlock → B i) ∧ ∀ s, row.value = .dataUnit s → U s := by
  -- By induction on how the row is reached, for its block and for its data unit at once.
  induction h with
  | top =>
    intro row hrow
    obtain ⟨row', s, hrow', hvalue, hmet⟩ := topMet
    obtain rfl := Except.ok.inj (hrow.symm.trans hrow')
    refine ⟨fun hblock => ?_, fun s' hvalue' => ?_⟩
    · cases hblock.1.symm.trans hvalue
    · cases hvalue.symm.trans hvalue'
      exact hmet
  | @owned i j owner _ howner present owns ih =>
    intro row hrow
    have hblock := hasBlock_of_owns howner (wellFormed.fits i owner howner) present owns counts
    exact owned i j owner row ((ih owner howner).1 hblock) howner owns hrow
  | @root i root unitRow s _ hunitRow value start ih =>
    intro row hrow
    have hkind := (wellFormed.fits i unitRow hunitRow).kind_of_dataUnit value
    obtain ⟨root', hroot, hblock⟩ := rooted s ((ih unitRow hunitRow).2 s value)
    obtain rfl := wellFormed.shared s root root' ⟨i, unitRow, hunitRow, value, start⟩ hroot
    refine ⟨fun _ => hblock, fun s' hvalue => ?_⟩
    obtain ⟨-, object, hobject, -, hpresent⟩ := wellFormed.roots i unitRow _ hunitRow hkind start
    obtain rfl := Except.ok.inj (hrow.symm.trans hobject)
    cases hpresent.symm.trans hvalue

/-- Whatever belongs to a packed model is found in one of its data units. -/
theorem finds_of_reaches {met : List Digest} {top i : Nat} {units : Nat}
    {views : Nat → Container.UnitReader} {roots : Nat → Nat} (wellFormed : m.WellFormed top)
    (read : ∀ unit < units, UnitRead m registry met (views unit) (roots unit))
    (complete : ∀ s ∈ met, ∃ unit < units, m.HasUnit s (roots unit))
    (topMet : ∃ row s, m.row top = .ok row ∧ row.value = .dataUnit s ∧ s ∈ met)
    (counts : ¬ LosesCount m) (h : m.Reaches top i) : ∀ row, m.row i = .ok row →
      (row.HasBlock → ∃ unit < units, ∃ base, m.Finds (views unit) (roots unit) i base) ∧
      ∀ s, row.value = .dataUnit s → s ∈ met := by
  refine blocks_of_reaches
    (B := fun i => ∃ unit < units, ∃ base, m.Finds (views unit) (roots unit) i base)
    wellFormed counts topMet ?_ ?_ h
  · rintro i j owner row ⟨unit, hunit, base, hfinds⟩ howner howns hrow
    obtain ⟨span, offsets, hmembers, hlayout, hlength, hrows⟩ :=
      (read unit hunit).blocks i base hfinds
    have hspan : owner.members = .ok span := (Model.members_eq howner).symm.trans hmembers
    obtain ⟨k, hk, rfl⟩ := (Row.owns_iff hspan j).mp howns
    refine ⟨fun hblock => ?_, (read unit hunit).units i base hfinds span k row hmembers hk hrow⟩
    obtain ⟨row', hrow', -, hanswers⟩ := hrows k _ (List.getElem?_eq_getElem (hlength ▸ hk))
    obtain rfl := Except.ok.inj (hrow.symm.trans hrow')
    obtain ⟨place, hplace⟩ := hanswers hblock
    exact ⟨unit, hunit, place, .slot hfinds hmembers hlayout
      (List.getElem?_eq_getElem (hlength ▸ hk)) hrow hblock hplace⟩
  · intro s hs
    obtain ⟨unit, hunit, hroot⟩ := complete s hs
    obtain ⟨place, hplace⟩ := (read unit hunit).found
    exact ⟨roots unit, hroot, unit, hunit, _, .root hplace⟩

end Packing

end ObjectPack
