import ObjectPack.Container.Reader
import ObjectPack.Proofs.Compile.Exact
import ObjectPack.Proofs.Compile.Once
import ObjectPack.Proofs.Packing.Read

/-!
# Enumerations of a compiled data unit

Wherever an object graph holds a value of an enumeration, be it a field, an element, a key or a value of a dictionary,
or a field that is absent and gets the default, the value reaches its row as it is (`Walk.Shows.value_eq_enum`) and is
packed in the format of the enumeration.  It is read back iff the enumeration holds it (`Options.compile_enums`);
nothing checks that it does, so other values lose their high bits without an error (`Options.exists_cut_enum`).

A value of an enumeration is a signed number of 64 bits, and the format of the enumeration may be narrower.  Packing
takes the low bits of the value and does not look at the others (`Enumeration.toBits_pack`).  Whatever is read back is
in the range of the format (`Scalar.inRange_toInt64`), so a value survives iff it is in that range itself; unsigned
numbers of 64 bits are read back in two's complement, and every value survives in them
(`Enumeration.toInt64_pack_iff`).
-/

namespace ObjectPack

/-! ### Packed values -/

namespace Scalar

/-- An integer as a signed one of 64 bits; an unsigned one of 64 bits is taken for its two's complement. -/
def toInt64 (s : Scalar) : Int64 := .ofInt s.toInt

/-- The value of a scalar is one that its format has. -/
theorem toInt_bounds (s : Scalar) :
    if s.format.isSigned then -2 ^ (8 * s.format.width - 1) ≤ s.toInt ∧ s.toInt < 2 ^ (8 * s.format.width - 1)
    else 0 ≤ s.toInt ∧ s.toInt < 2 ^ (8 * s.format.width) := by
  cases s with
  | i8 v => exact ⟨v.le_toInt, v.toInt_lt⟩
  | i16 v => exact ⟨v.le_toInt, v.toInt_lt⟩
  | i32 v => exact ⟨v.le_toInt, v.toInt_lt⟩
  | i64 v => exact ⟨v.le_toInt, v.toInt_lt⟩
  | u8 v => exact ⟨Int.natCast_nonneg _, Int.ofNat_lt.mpr v.toNat_lt⟩
  | u16 v => exact ⟨Int.natCast_nonneg _, Int.ofNat_lt.mpr v.toNat_lt⟩
  | u32 v | f32 v => exact ⟨Int.natCast_nonneg _, Int.ofNat_lt.mpr v.toNat_lt⟩
  | u64 v | f64 v => exact ⟨Int.natCast_nonneg _, Int.ofNat_lt.mpr v.toNat_lt⟩

/-- Integers that are narrower than 64 bits, or have a sign, are what they are. -/
theorem toInt_toInt64 {s : Scalar} (integer : s.format.isInteger = true) (format : s.format ≠ .u64) :
    s.toInt64.toInt = s.toInt := by
  have hbounds := s.toInt_bounds
  suffices h : -2 ^ 63 ≤ s.toInt ∧ s.toInt < 2 ^ 63 from Int64.toInt_ofInt_of_le h.1 h.2
  revert hbounds integer format
  cases s.format <;> simp [Format.isInteger, Format.isSigned, Format.width] <;> omega

/-- What is read is in the range of its format. -/
theorem inRange_toInt64 {s : Scalar} (integer : s.format.isInteger = true) (format : s.format ≠ .u64) :
    s.format.InRange s.toInt64 := by
  unfold Format.InRange
  rw [toInt_toInt64 integer format]
  exact s.toInt_bounds

end Scalar

namespace Enumeration

variable {e : Enumeration} {v : Int64}

/-- Whether the values of an enumeration may have a value without losing bits of it when they are packed. -/
def Holds (e : Enumeration) (v : Int64) : Prop := e.format = .u64 ∨ e.format.InRange v

@[simp] theorem format_pack (e : Enumeration) (v : Int64) : (e.pack v).format = e.format := Scalar.format_ofBits _ _

/-- The low bits of a value are packed. -/
theorem toBits_pack (e : Enumeration) (v : Int64) :
    (e.pack v).toBits = v.toUInt64.toNat % Nat.pow 256 e.format.width := Scalar.toBits_ofBits _ _

/-- What is packed is read back as the value iff the enumeration holds the value. -/
theorem toInt64_pack_iff : (e.pack v).toInt64 = v ↔ e.Holds v := by
  constructor
  · intro h
    refine or_iff_not_imp_left.mpr fun hformat => ?_
    have hrange := Scalar.inRange_toInt64 (s := e.pack v) (by rw [format_pack]; exact e.integral)
      (by rwa [format_pack])
    rwa [format_pack, h] at hrange
  · rintro (hformat | hrange)
    · show Int64.ofInt (Scalar.ofBits e.format v.toUInt64.toNat).toInt = v
      rw [hformat]
      show Int64.ofInt ((UInt64.ofNat v.toUInt64.toNat).toNat : Int) = v
      rw [UInt64.ofNat_toNat, Int64.ofInt_eq_iff_bmod_eq_toInt]
      exact (v.toBitVec.toInt_eq_toNat_bmod).symm
    · show Int64.ofInt (Scalar.ofBits e.format v.toUInt64.toNat).toInt = v
      rw [Scalar.toInt_ofBits hrange, Int64.ofInt_toInt]

end Enumeration

/-! ### Values of an object graph -/

open Outcome Packing

namespace Walk

/-- Whether what a row stands for holds a value of an enumeration; what is absent holds the default of the
enumeration that it is declared with. -/
inductive Origin.HoldsEnum (r : Rules) : Origin → Enumeration → Int64 → Prop
  | value {name : String} {declared : Ty} {e : Enumeration} {v : Int64} :
    HoldsEnum r (.part name declared (some (.enum e v))) e v
  | absent {name : String} {declared : Ty} {value : Option Value} {e : Enumeration}
      (treated : r.treatmentOf declared value = some .enum) (absent : isAbsent value = true)
      (declares : declared.strip = .enum e) : HoldsEnum r (.part name declared value) e e.defaultValue

variable {r : Rules} {use : Ty → Option Value → Bool} {texts : TextPool} {origins : List Origin} {o : Origin}
  {row : Row} {e : Enumeration} {v : Int64}

theorem Plain.value_eq_enum (h : Plain r texts o row) (holds : o.HoldsEnum r e v) : row.value = .enum e v := by
  cases holds with
  | value =>
    cases h with
    | enum _ => rfl
    | noBool _ absent | noScalar _ absent | noText _ absent | noEnum _ absent _ | noObject _ absent
    | noUnit _ absent => cases absent
  | absent treated absent declares =>
    cases h with
    | enum _ => cases absent
    | noEnum _ _ declares' =>
      cases declares.symm.trans declares'
      rfl
    | bool treated' | noBool treated' _ | scalar treated' | noScalar treated' _ | text treated' _
    | noText treated' _ | custom treated' | noCustom treated' | noObject treated' _ | noUnit treated' _ =>
      cases treated.symm.trans treated'

/-- A value of an enumeration reaches its row as it is. -/
theorem Shows.value_eq_enum (h : Shows r use texts origins o row) (holds : o.HoldsEnum r e v) :
    row.value = .enum e v := by
  cases h with
  | plain h => exact h.value_eq_enum holds
  | object _ value _ _ _ | dataUnit _ value _ _ =>
    cases holds with
    | value => cases value
    | absent _ absent _ =>
      cases value
      cases absent
  | sequence _ _ _ _ _ | dictionary _ _ _ _ _ _ =>
    cases holds with
    | absent _ absent _ => cases absent
  | noElements treated empty _ _ | noEntries treated empty _ _ =>
    cases holds with
    | value =>
      rcases empty with hempty | habsent
      · cases hempty
      · cases habsent
    | absent treated' _ _ => cases treated.symm.trans treated'

end Walk

namespace Packing

/-- Whether a block holds a value of an enumeration for row `i`, where the layout places the row: as many bytes as
the format is wide, which are read as a number `s` with the low bits of the value.  As a signed number of 64 bits it
is the value iff the enumeration holds the value. -/
def HoldsEnum (m : Model) (d : Draft) (block : Block) (owner i : Nat) (e : Enumeration) (v : Int64) : Prop :=
  ∃ body span starts k start b s, block.body = some body ∧ m.members owner = .ok span ∧
    m.memberOffsets owner = .ok starts ∧ span.start + k = i ∧ starts[k]? = some start ∧
    d.HoldsAt body start b ∧ b.length = e.format.width ∧ Scalar.decode? d.endian e.format b = some s ∧
    s.toBits = v.toUInt64.toNat % Nat.pow 256 e.format.width ∧ (s.toInt64 = v ↔ e.Holds v)

variable {m : Model} {registry : Registry} {scope : Scope} {d : Draft} {block : Block} {owner i : Nat} {row r : Row}
  {e : Enumeration} {v : Int64}

theorem BlockExact.holdsEnum (h : BlockExact m registry scope d block owner) (howner : m.row owner = .ok row)
    (owns : row.Owns i) (hrow : m.row i = .ok r) (hvalue : r.value = .enum e v) :
    HoldsEnum m d block owner i e v := by
  obtain ⟨-, body, span, starts, -, -, hbody, hspan, hstarts, hexact, -⟩ := h.content
  obtain ⟨k, hk, rfl⟩ := (Row.owns_iff ((Model.members_eq howner).symm.trans hspan) i).mp owns
  have hstart := List.getElem?_eq_getElem (hexact.length ▸ hk : k < starts.length)
  obtain ⟨r', hrow', hpacked⟩ := hexact.rows k _ hstart
  obtain rfl := Except.ok.inj (hrow.symm.trans hrow')
  have hholds := hpacked.holds_plain (b := (e.pack v).encode d.endian) (by rw [Row.plain?, hvalue])
  have hdecode := Scalar.decode?_encode d.endian (e.pack v) []
  rw [List.append_nil, e.format_pack] at hdecode
  exact ⟨body, span, starts, k, _, _, e.pack v, hbody, hspan, hstarts, rfl, hstart, hholds,
    by rw [Scalar.length_encode, e.format_pack], hdecode, e.toBits_pack v, Enumeration.toInt64_pack_iff⟩

/-- A value of an enumeration that belongs to a data unit is packed in a block, unless a collection that it is in looks
empty. -/
theorem ModelExact.exists_owner_of_enum {made : List (Reference × Nat)} {top : Nat}
    (exact : ModelExact m registry d made) (once : PackedOnce m registry top d) (whole : m.Whole top)
    (hrow : m.row i = .ok r) (hvalue : r.value = .enum e v) (reached : m.Reaches top i) :
    LosesCount m ∨ ∃ reference owner row, (reference, owner) ∈ made ∧ m.row owner = .ok row ∧ row.Owns i := by
  refine or_iff_not_imp_left.mpr fun hcounts => ?_
  cases reached with
  | top =>
    obtain ⟨row, s, hrow', hvalue', -⟩ := once.first
    obtain rfl := Except.ok.inj (hrow.symm.trans hrow')
    cases hvalue.symm.trans hvalue'
  | @owned owner _ row hreached howner hpresent howns =>
    have hblock := hasBlock_of_owns howner (whole.fits owner row howner) hpresent howns hcounts
    obtain ⟨reference, hmade⟩ := exact.made_of_reaches once whole.toWellFormed hcounts hreached howner hblock
    exact ⟨reference, owner, row, hmade, howner, howns⟩
  | @root unitRow _ row s _ hunit hunitValue hstart =>
    have hkind := (whole.fits unitRow row hunit).kind_of_dataUnit hunitValue
    obtain ⟨-, object, hobject, -, hpresent⟩ := whole.roots unitRow row i hunit hkind hstart
    obtain rfl := Except.ok.inj (hrow.symm.trans hobject)
    cases hvalue.symm.trans hpresent

end Packing

namespace Options

variable {o : Options} {classifier : Classifier} {registry : Registry} {unit : DataUnit}

/-- In what a data unit is compiled to, every value of an enumeration that the object graph holds is packed in the
format of the enumeration, and is read back **iff the enumeration holds it**. -/
theorem compile_enums {result : CompiledUnit} (compiled : o.compile classifier registry unit = .ok result) :
    ∃ root walked m passes place origins d made, (o.rules classifier).walk .empty unit = .ok (root, walked) ∧
      Walk.Pictures (o.rules classifier) walked origins ∧ origins[root]? = some (.unit unit) ∧
      walked.solve = .ok (m, passes) ∧ walked.Solved m passes place ∧
      packFrom m registry (.blank o.platform o.encoding m.supply) root = .ok d ∧ d.link = .ok result.data ∧
      ModelExact m registry d made ∧
      ∀ i origin e v, origins[i]? = some origin → origin.HoldsEnum (o.rules classifier) e v →
        (∃ row, m.row (place i) = .ok row ∧ row.value = .enum e v) ∧
        (m.Reaches root (place i) → LosesCount m ∨
          ∃ reference owner row, (reference, owner) ∈ made ∧ m.row owner = .ok row ∧ row.Owns (place i)) ∧
        ∀ reference owner row, (reference, owner) ∈ made → m.row owner = .ok row → row.Owns (place i) →
          ∃ block ∈ d.blocks, block.reference = reference ∧ HoldsEnum m d block owner (place i) e v := by
  obtain ⟨root, m, hsolved, hpacked, -⟩ := compile_eq_ok.mp compiled
  obtain ⟨walked, passes, hwalk, hsolve⟩ := solvedModel_eq_ok.mp hsolved
  obtain ⟨origins, hpictures, hbegins, -⟩ := Walk.Rules.walk_pictures_inUnit hwalk
  have hwhole := solvedModel_whole hsolved
  obtain ⟨place, hplace⟩ := Model.solve_solved (Walk.Rules.walk_whole (s := .full) hwalk)
    (Walk.Rules.walk_ordered (s := .full) hwalk) hsolve
  obtain ⟨d, hdraft, hlink⟩ := exists_draft hpacked
  obtain ⟨made, hexact⟩ := packFrom_exact hwhole.fits hwhole.objects hwhole.texts hdraft
  have honce := packFrom_packedOnce hwhole (solvedModel_unitsReached hsolved).1 hdraft
  refine ⟨root, walked, m, passes, place, origins, d, made, hwalk, hpictures, hbegins, hsolve, hplace, hdraft, hlink,
    hexact, fun i origin e v horigin hholds => ?_⟩
  have hinside : i < walked.size := hpictures.length ▸ (List.getElem?_eq_some_iff.mp horigin).1
  obtain ⟨row, hrow⟩ := Model.exists_row_of_lt hinside
  have hvalue := (hpictures.shows i row origin hrow horigin).value_eq_enum hholds
  have hmoved := hplace.row i row hrow
  have hmovedValue := (walked.foldedRow_value row).trans hvalue
  refine ⟨⟨_, hmoved, hmovedValue⟩, hexact.exists_owner_of_enum honce hwhole hmoved hmovedValue,
    fun reference owner ownerRow hmade howner howns => ?_⟩
  obtain ⟨block, hblock, hreference, hfor⟩ := hexact.exact _ hmade
  exact ⟨block, hblock, hreference, hfor.holdsEnum howner howns hmoved hmovedValue⟩

/-- An enumeration that is packed in one byte. -/
def level : Enumeration := ⟨"Level", .u8, [("low", 1), ("high", 255)], (rfl : true = true)⟩

/-- An enumeration that is packed in two bytes with a sign. -/
def slope : Enumeration := ⟨"Slope", .i16, [("down", -32768), ("up", 32767)], (rfl : true = true)⟩

/-- An enumeration that is packed in eight bytes without a sign. -/
def mask : Enumeration := ⟨"Mask", .u64, [("none", 0), ("all", -1)], (rfl : true = true)⟩

/-- A data unit with enumerations in fields, one of them absent, as elements, and as keys and values of a dictionary;
one value is too great for its enumeration. -/
def levels : DataUnit :=
  ⟨"levels", ⟨"Root", [⟨"m_level", .enum level, .enum level 255⟩, ⟨"m_slope", .nullable (.enum slope), .null⟩,
    ⟨"m_levels", .list (.enum level), .sequence [.enum level 1, .enum level 511]⟩,
    ⟨"m_masks", .dictionary (.enum slope) (.enum mask), .dictionary [(.enum slope (-1), .enum mask (-1))]⟩]⟩⟩

/-- Six values are packed; only 511 is too great for its enumeration. -/
theorem compile_enums_levels : ∃ (place : Nat → Nat) (result : CompiledUnit) (origins : List Walk.Origin),
    ∃ root walked m passes d made,
    compile {} .standard .empty levels = .ok result ∧ (rules {} .standard).walk .empty levels = .ok (root, walked) ∧
    walked.rows.toList.filterMap (·.value.enum?) =
      [(level, 255), (slope, -32768), (level, 1), (level, 511), (slope, -1), (mask, -1)] ∧
    level.Holds 255 ∧ slope.Holds (-32768) ∧ mask.Holds (-1) ∧ ¬ level.Holds 511 ∧
    Walk.Pictures (rules {} .standard) walked origins ∧ walked.solve = .ok (m, passes) ∧ d.link = .ok result.data ∧
    ModelExact m .empty d made ∧
    ∀ i origin e v, origins[i]? = some origin → origin.HoldsEnum (rules {} .standard) e v →
      (∃ row, m.row (place i) = .ok row ∧ row.value = .enum e v) ∧
      (m.Reaches root (place i) → LosesCount m ∨
        ∃ reference owner row, (reference, owner) ∈ made ∧ m.row owner = .ok row ∧ row.Owns (place i)) ∧
      ∀ reference owner row, (reference, owner) ∈ made → m.row owner = .ok row → row.Owns (place i) →
        ∃ block ∈ d.blocks, block.reference = reference ∧ HoldsEnum m d block owner (place i) e v := by
  have hcheck : ((compile {} .standard .empty levels).toOption.isSome &&
      ((rules {} .standard).walk .empty levels).toOption.any fun x =>
        x.2.rows.toList.filterMap (·.value.enum?) =
          [(level, 255), (slope, -32768), (level, 1), (level, 511), (slope, -1), (mask, -1)]) = true := by
    decide +kernel
  simp only [Option.any_eq_true, Option.isSome_iff_exists, Bool.and_eq_true, decide_eq_true_eq, toOption_eq_some,
    Prod.exists] at hcheck
  obtain ⟨⟨result, hcompile⟩, root, walked, hwalk, hvalues⟩ := hcheck
  obtain ⟨root', walked', m, passes, place, origins, d, made, hwalk', hpictures, -, hsolve, -, -, hlink, hexact,
    hall⟩ := compile_enums hcompile
  obtain ⟨rfl, rfl⟩ := Prod.mk.inj (Except.ok.inj (hwalk.symm.trans hwalk'))
  refine ⟨place, result, origins, root, walked, m, passes, d, made, hcompile, hwalk, hvalues, .inr ?_, .inr ?_,
    .inl rfl, not_or.mpr ⟨?_, ?_⟩, hpictures, hsolve, hlink, hexact, hall⟩
  · show (0 : Int) ≤ (255 : Int64).toInt ∧ (255 : Int64).toInt < 256
    decide
  · show (-32768 : Int) ≤ (-32768 : Int64).toInt ∧ (-32768 : Int64).toInt < 32768
    decide
  · exact Scalar.Format.noConfusion
  · show ¬ ((0 : Int) ≤ (511 : Int64).toInt ∧ (511 : Int64).toInt < 256)
    decide

/-- A data unit with a value that its enumeration does not hold. -/
def overfull : DataUnit := ⟨"overfull", ⟨"Root", [⟨"m_level", .enum level, .enum level 256⟩]⟩⟩

/-- The data unit is compiled without an error, and its only byte reads 0 instead of 256. -/
theorem exists_cut_enum : ∃ result r u, compile {} .standard .empty overfull = .ok result ∧
    Container.Reader.ofBytes result.data.bytes = .ok r ∧ r.units = [u] ∧ u.root? = some 16 ∧ u.bytes.length = 17 ∧
    u.read level.format 16 = .ok (.u8 0) ∧ (Scalar.u8 0).toInt64 = 0 := by
  have hcheck : ((compile {} .standard .empty overfull).toOption.any fun result =>
      (Container.Reader.ofBytes result.data.bytes).toOption.any fun r => r.units.head?.any fun u =>
        r.units.length = 1 && u.root? = some 16 && u.bytes.length = 17 &&
          (u.read level.format 16).toOption = some (.u8 0)) = true := by
    decide +kernel
  simp only [Option.any_eq_true, Bool.and_eq_true, decide_eq_true_eq, toOption_eq_some] at hcheck
  obtain ⟨result, hcompile, r, hr, u, hu, ⟨⟨hlength, hroot⟩, hbytes⟩, hread⟩ := hcheck
  refine ⟨result, r, u, hcompile, hr, ?_, hroot, hbytes, hread, rfl⟩
  obtain ⟨u', hunits⟩ := List.length_eq_one_iff.mp hlength
  rw [hunits] at hu ⊢
  cases hu
  rfl

end Options

end ObjectPack
