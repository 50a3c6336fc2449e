import ObjectPack.Proofs.Compile.Aligned
import ObjectPack.Proofs.Compile.Compact
import ObjectPack.Proofs.Model.Stride

/-!
# Collections with a stride

The elements of a collection match, so they have one size and one alignment, if structs and enumerations of one name
have one shape (`Value.ShapedByName`, `Model.exists_alikeFrom`).  The elements of an array then stand at multiples of
their padded size, and so do the keys of a dictionary, and its values behind the keys, in the model of a data unit as it
is walked and with its layout solved (`Options.collections_stride`).  All elements are found where a block as long as
they need it is one of 32 bits, unless the values of a dictionary take no bytes: those stand behind the keys, and
rounding up to their alignment takes a sum that may leave the word though no value does (`Options.exists_unplaced`).
-/

namespace ObjectPack

open Outcome

/-- Whether the names of custom structs and of enumerations decide on their shapes, all over a value: on sizes,
alignments that are powers of two and words, and formats of numbers. -/
structure Value.ShapedByName (whole : Value) : Prop extends whole.AlignsByName where
  sizes : ∀ c c', whole.HasCustom c → whole.HasCustom c' → c.name = c'.name → c.size = c'.size
  words : ∀ c, whole.HasCustom c → c.alignment < wordLimit

/-- Names decide on shapes if they do among some custom structs and enumerations that are all there are. -/
theorem Value.shapedByName_of_mem {whole : Value} (customs : List CustomStruct) (enums : List Enumeration)
    (hasCustom : ∀ c, whole.HasCustom c → c ∈ customs) (hasEnum : ∀ e, whole.HasEnum e → e ∈ enums)
    (custom : ∀ c ∈ customs, isPowerOfTwo c.alignment = true ∧ c.alignment < wordLimit ∧
      ∀ c' ∈ customs, c.name = c'.name → c.alignment = c'.alignment ∧ c.size = c'.size)
    (enum : ∀ e ∈ enums, ∀ e' ∈ enums, e.name = e'.name → e.underlying = e'.underlying) : whole.ShapedByName where
  powers c hc := (custom c (hasCustom c hc)).1
  customs c c' hc hc' h := ((custom c (hasCustom c hc)).2.2 c' (hasCustom c' hc') h).1
  enums e e' he he' := enum e (hasEnum e he) e' (hasEnum e' he')
  sizes c c' hc hc' h := ((custom c (hasCustom c hc)).2.2 c' (hasCustom c' hc') h).2
  words c hc := (custom c (hasCustom c hc)).2.1

/-! ### Shapes of elements -/

namespace Row

variable {whole : Value} {x y : Row} {base : Option String}

/-- Rows that match have one size. -/
theorem Named.size?_eq (hx : x.Named whole) (hy : y.Named whole) (shaped : whole.ShapedByName)
    (h : x.Matches base y) : x.size? = y.size? := by
  rcases hx.cases hy h with ⟨hstruct, henum⟩ | ⟨c, c', hkind, hvalue, hvalue', hc, hc', hsame⟩ |
    ⟨e, v, e', v', hkind, hvalue, hvalue', he, he', hsame⟩
  · rw [size?_of_ne hstruct henum, size?_of_ne (h.kind ▸ hstruct) (h.kind ▸ henum), h.kind]
  · rw [size?, size?, ← h.kind, hkind, hvalue, hvalue']
    exact congrArg some (shaped.sizes c c' hc hc' hsame)
  · rw [size?, size?, ← h.kind, hkind, hvalue, hvalue']
    exact congrArg (fun kind => some kind.byteSize) (shaped.enums e e' he he' hsame)

/-- A row that is named has a size and an alignment. -/
theorem Named.sized (named : x.Named whole) (fits : x.Fits) (shaped : whole.ShapedByName) : x.Sized := by
  refine fits.sized fun c hvalue => ?_
  obtain ⟨c', hvalue', -, hc⟩ := named.custom (fits.kind_of_struct hvalue)
  obtain rfl := Payload.struct.inj (hvalue.symm.trans hvalue')
  exact ⟨shaped.powers c hc, shaped.words c hc⟩

end Row

namespace Model

variable {m : Model} {i first n size align b : Nat} {c : Row} {base : Option String} {whole : Value}

/-- The elements of a series have one size and one alignment. -/
theorem exists_alikeFrom (matched : m.Matched) (fits : m.AllFit) (named : m.Named whole) (shaped : whole.ShapedByName)
    (hrow : m.row i = .ok c) (series : c.Series first base) : ∃ size align, m.AlikeFrom first c.count size align := by
  have hrows := matched i c first base hrow series
  have hblock : m.OwnsBlock i := ⟨c, hrow, .inr series.collection⟩
  have helement : ∀ k < c.count, ∃ x, m.row (first + k) = .ok x ∧ x.Named whole := by
    intro k hk
    obtain ⟨x, hx⟩ := exists_row_of_lt (Nat.lt_of_lt_of_le (Nat.add_lt_add_left hk first) hrows.inside)
    exact ⟨x, hx, named i _ c x hblock hrow (series.owns (Nat.le_add_right _ _) (Nat.add_lt_add_left hk first)) hx⟩
  by_cases hempty : c.count = 0
  · rw [hempty]
    exact ⟨0, 1, { size := nofun, alignment := nofun, power := by decide, word := by decide }⟩
  · obtain ⟨x, hx, hxnamed⟩ := helement 0 (Nat.pos_of_ne_zero hempty)
    obtain ⟨⟨align, halign, hpower, hword⟩, size, hsize⟩ := hxnamed.sized (fits _ x hx) shaped
    -- Every element has the shape of the first one.
    have hmatches : ∀ k < c.count, ∀ y, m.row (first + k) = .ok y → x.Matches base y := by
      intro k hk y hy
      exact hrows.pair _ _ x y (Nat.le_add_right _ _) (by omega) (Nat.le_add_right _ _) (by omega) hx hy
    refine ⟨size, align, { size := fun k hk => ?_, alignment := fun k hk => ?_, power := hpower, word := hword }⟩
    · obtain ⟨y, hy, hynamed⟩ := helement k hk
      exact byteSize_eq hy (hxnamed.size?_eq hynamed shaped (hmatches k hk y hy) ▸ hsize)
    · obtain ⟨y, hy, hynamed⟩ := helement k hk
      exact alignment_eq hy (hxnamed.alignment?_eq hynamed shaped.toAlignsByName (hmatches k hk y hy) ▸ halign)

/-- The elements of an array are the rows that it owns. -/
theorem members_of_array (matched : m.Matched) (small : m.size < indexLimit) (hrow : m.row i = .ok c)
    (kind : c.kind = .array) (start : c.start = some first) : m.members i = .ok ⟨first, c.count⟩ := by
  have hinside := (matched i c first _ hrow (.elements kind start)).inside
  have hcount : c.ownedCount = c.count := by rw [Row.ownedCount, kind]
  rw [members_eq hrow, Row.members_of_start start (by rw [kind]; decide), hcount]
  exact spanFrom_of_lt (Nat.lt_of_le_of_lt hinside small)

/-- The keys and the values of a dictionary are the rows that it owns. -/
theorem members_of_dictionary (matched : m.Matched) (small : m.size < indexLimit) (hrow : m.row i = .ok c)
    (kind : c.kind = .dictionary) (start : c.start = some first) : m.members i = .ok ⟨first, 2 * c.count⟩ := by
  have hinside := (matched i c _ _ hrow (.values kind start)).inside
  have hcount : c.ownedCount = 2 * c.count := by rw [Row.ownedCount, kind]
  rw [members_eq hrow, Row.members_of_start start (by rw [kind]; decide), hcount]
  exact spanFrom_of_lt (by omega)

end Model

/-! ### Models of data units -/

/-- The collections of a picture begin somewhere. -/
theorem Walk.Pictures.exists_start {r : Walk.Rules} {m : Model} {origins : List Walk.Origin} {i : Nat} {c : Row}
    (h : Walk.Pictures r m origins) (hrow : m.row i = .ok c) (kind : c.kind = .array ∨ c.kind = .dictionary) :
    ∃ first, c.start = some first := by
  obtain ⟨o, -, hshows⟩ := h.shown hrow
  cases hshows with
  | plain hplain =>
    rcases kind with kind | kind <;> cases hplain
    all_goals first | cases kind | exact absurd kind (Row.ofFormat_ne rfl).symm
  | object | sequence | noElements | dictionary | noEntries | dataUnit => exact ⟨_, rfl⟩

namespace Options

variable {o : Options} {classifier : Classifier} {unit : DataUnit} {m : Model} {i : Nat} {c : Row}

/-- Whether a model is that of a data unit, as it is walked or with its layout solved. -/
def Models (o : Options) (classifier : Classifier) (unit : DataUnit) (m : Model) : Prop :=
  ∃ root, (o.rules classifier).walk .empty unit = .ok (root, m) ∨ o.solvedModel classifier unit = .ok (root, m)

/-- The model of a data unit has collections of rows that match, fit their kinds and go by their names. -/
theorem Models.collections (h : o.Models classifier unit m) : m.Matched ∧ m.Named (.dataUnit unit) ∧ m.AllFit ∧
    ∀ i c, m.row i = .ok c → c.kind = .array ∨ c.kind = .dictionary → ∃ first, c.start = some first := by
  obtain ⟨root, hwalk | hsolved⟩ := h
  · obtain ⟨origins, hpictures⟩ := Walk.Rules.exists_pictures hwalk
    exact ⟨Walk.Rules.walk_matched hwalk, Walk.Rules.walk_named hwalk, (Walk.Rules.walk_whole (s := .full) hwalk).fits,
      fun _ _ => hpictures.exists_start⟩
  · obtain ⟨hmatched, hnamed⟩ := solvedModel_named hsolved
    refine ⟨hmatched, hnamed, (solvedModel_whole hsolved).fits, fun j c hrow kind => ?_⟩
    -- Solving the layout moves collections, and leaves them as they are.
    obtain ⟨walked, passes, hwalk, hsolve⟩ := solvedModel_eq_ok.mp hsolved
    have hwhole := Walk.Rules.walk_whole (s := .full) hwalk
    have hordered := Walk.Rules.walk_ordered (s := .full) hwalk
    obtain ⟨place, hplace⟩ := Model.solve_solved hwhole hordered hsolve
    obtain ⟨k, hk⟩ := hplace.collections hwhole hordered j c hrow kind
    obtain ⟨origins, hpictures⟩ := Walk.Rules.exists_pictures hwalk
    exact hpictures.exists_start hk kind

/-- **Collections have a stride**: in the model of a data unit where names decide on shapes, the elements of an array
stand at multiples of their padded size, and so do the keys of a dictionary, and its values from the end of the keys
on, where the block is as long as a word can tell; for values that take no bytes there also has to be room for their
alignment behind the keys. -/
theorem collections_stride (models : o.Models classifier unit m) (shaped : (Value.dataUnit unit).ShapedByName)
    (small : m.size < Model.indexLimit) (hrow : m.row i = .ok c) :
    (c.kind = .array → ∃ first size align, m.members i = .ok ⟨first, c.count⟩ ∧
      m.AlikeFrom first c.count size align ∧
      (∀ length, m.blockSize i = .ok length → length = Model.arrayLength c.count size align ∧
        m.memberOffsets i = .ok (strides 0 (roundUp size align) c.count)) ∧
      (Model.arrayLength c.count size align < wordLimit →
        m.memberOffsets i = .ok (strides 0 (roundUp size align) c.count))) ∧
    (c.kind = .dictionary → ∃ first size align size' align', m.members i = .ok ⟨first, 2 * c.count⟩ ∧
      m.AlikeFrom first c.count size align ∧ m.AlikeFrom (first + c.count) c.count size' align' ∧
      (∀ length, m.blockSize i = .ok length → length = Model.dictionaryLength c.count size align size' align' ∧
        m.memberOffsets i = .ok (strides 0 (roundUp size align) c.count ++
          strides (roundUp (seriesEnd 0 c.count size align) align') (roundUp size' align') c.count)) ∧
      (Model.dictionaryLength c.count size align size' align' < wordLimit →
        (m.memberOffsets i = .ok (strides 0 (roundUp size align) c.count ++
            strides (roundUp (seriesEnd 0 c.count size align) align') (roundUp size' align') c.count) ↔
          c.count = 0 ∨ size' ≠ 0 ∨ align' ≤ 1 ∨
            seriesEnd (seriesEnd 0 c.count size align) (c.count - 1) size' align' + align' < wordLimit))) := by
  obtain ⟨hmatched, hnamed, hfits, hstarts⟩ := models.collections
  constructor
  · intro hkind
    obtain ⟨first, hstart⟩ := hstarts i c hrow (.inl hkind)
    have hmembers := Model.members_of_array hmatched small hrow hkind hstart
    obtain ⟨size, align, halike⟩ := Model.exists_alikeFrom hmatched hfits hnamed shaped hrow (.elements hkind hstart)
    refine ⟨first, size, align, hmembers, halike, fun length hlength => ?_, fun hfits => ?_⟩
    · obtain ⟨⟨span, starts, hoffsets⟩, -⟩ := Model.offsets_of_blockSize ⟨c, hrow, .inr (.inl hkind)⟩ hlength
      obtain ⟨rfl, -⟩ := (halike.memberOffsets_iff hmembers).mp hoffsets.memberOffsets
      exact ⟨halike.blockSize_eq hrow hkind hstart hmembers hlength, hoffsets.memberOffsets⟩
    · exact (halike.memberOffsets_iff hmembers).mpr ⟨rfl, Nat.lt_of_le_of_lt (le_roundUp _ _) hfits⟩
  · intro hkind
    obtain ⟨first, hstart⟩ := hstarts i c hrow (.inr hkind)
    have hmembers := Model.members_of_dictionary hmatched small hrow hkind hstart
    obtain ⟨size, align, hkeys⟩ := Model.exists_alikeFrom hmatched hfits hnamed shaped hrow (.keys hkind hstart)
    obtain ⟨size', align', hvalues⟩ :=
      Model.exists_alikeFrom hmatched hfits hnamed shaped hrow (.values hkind hstart)
    have hinside := (hmatched i c _ _ hrow (.values hkind hstart)).inside
    refine ⟨first, size, align, size', align', hmembers, hkeys, hvalues, fun length hlength => ?_, fun hfits => ?_⟩
    · obtain ⟨⟨span, starts, hoffsets⟩, -⟩ := Model.offsets_of_blockSize ⟨c, hrow, .inr (.inr hkind)⟩ hlength
      obtain ⟨rfl, -⟩ := (hkeys.memberOffsets_append_iff hvalues hmembers).mp hoffsets.memberOffsets
      exact ⟨hkeys.blockSize_append_eq hvalues hrow hkind hstart (by omega) hmembers hlength, hoffsets.memberOffsets⟩
    · -- The values end in the block, so the keys do as well.
      have hend := Nat.lt_of_le_of_lt (Model.le_dictionaryLength hkeys.power hvalues.power _ _ _) hfits
      have hkeysEnd := le_roundUp (seriesEnd 0 c.count size align) align'
      rw [hkeys.memberOffsets_append_iff hvalues hmembers, hasRoom_iff hvalues.power hend]
      exact ⟨fun h => h.2.2, fun h => ⟨rfl, by omega, h⟩⟩

/-- A custom struct that has to be padded in an array. -/
def tile : CustomStruct := ⟨"Tile", 12, 8, [.zeros 12], [], []⟩

/-- A data unit with an array of custom structs, and a dictionary whose values are more aligned than its keys. -/
def tiled : DataUnit :=
  ⟨"tiled", ⟨"Root", [⟨"m_tiles", .list (.custom "Tile"), .sequence [.custom tile, .custom tile, .custom tile]⟩,
    ⟨"m_shades", .dictionary (.scalar .u8) (.enum shade), .dictionary
      [(.scalar (.u8 1), .enum shade 0), (.scalar (.u8 2), .enum shade 1), (.scalar (.u8 3), .enum shade 0)]⟩]⟩⟩

/-- The data unit has one custom struct and one enumeration. -/
theorem tiled_shaped : (Value.dataUnit tiled).ShapedByName := by
  refine Value.shapedByName_of_mem [tile] [shade] (fun c h => ?_) (fun e h => ?_) (by decide) (by decide)
  · have hin := Value.hasCustom_iff.mp h
    simpa (disch := decide) [tiled, Value.in_of_isLeaf] using hin
  · rw [List.mem_singleton]
    rcases h with ⟨v, h⟩ | ⟨object, field, h, mem, hmentions⟩
    · have hvalue : e = shade ∧ v = 0 ∨ e = shade ∧ v = 1 ∨ e = shade ∧ v = 0 := by
        simpa (disch := decide) [tiled, Value.in_of_isLeaf] using h
      rcases hvalue with ⟨rfl, -⟩ | ⟨rfl, -⟩ | ⟨rfl, -⟩ <;> rfl
    · have hobject : object = tiled.root := by
        simpa (disch := decide) [tiled, Value.in_of_isLeaf] using h
      subst hobject
      simp only [tiled, List.mem_cons, List.not_mem_nil, or_false] at mem
      rcases mem with rfl | rfl
      · cases hmentions
      · exact hmentions.resolve_left nofun

/-- The custom structs take 12 bytes and stand every 16 bytes; the enumeration values stand every 2 bytes, behind three
keys and a byte of padding. -/
theorem collections_stride_tiled : ∃ root m array dictionary, solvedModel {} .standard tiled = .ok (root, m) ∧
    (Value.dataUnit tiled).ShapedByName ∧ m.size < Model.indexLimit ∧
    (m.row 2 = .ok array ∧ array.kind = .array ∧ m.memberOffsets 2 = .ok [0, 16, 32]) ∧
    (m.row 3 = .ok dictionary ∧ dictionary.kind = .dictionary ∧ m.memberOffsets 3 = .ok [0, 1, 2, 4, 6, 8]) := by
  have hcheck : (solvedModel {} .standard tiled).toOption.any (fun x => x.2.size < Model.indexLimit &&
      (x.2.row 2).toOption.any (fun array => array.kind = .array && array.count = 3) &&
      (x.2.row 3).toOption.any (fun dictionary => dictionary.kind = .dictionary && dictionary.count = 3) &&
      (x.2.members 2).toOption = some ⟨4, 3⟩ && (x.2.members 3).toOption = some ⟨7, 6⟩ &&
      (x.2.byteSize 4).toOption = some 12 && (x.2.alignment 4).toOption = some 8 &&
      (x.2.byteSize 7).toOption = some 1 && (x.2.alignment 7).toOption = some 1 &&
      (x.2.byteSize 10).toOption = some 2 && (x.2.alignment 10).toOption = some 2) = true := by
    decide +kernel
  simp only [Option.any_eq_true, Bool.and_eq_true, decide_eq_true_eq, toOption_eq_some, Prod.exists,
    and_assoc] at hcheck
  obtain ⟨root, m, hsolved, hsmall, ⟨array, harray, hkind, hcount⟩, ⟨dictionary, hdictionary, hkind', hcount'⟩,
    hmembers, hmembers', htile, htileAlign, hkey, hkeyAlign, hvalue, hvalueAlign⟩ := hcheck
  have hmodels : Options.Models {} .standard tiled m := ⟨root, .inr hsolved⟩
  have hfirst : m.memberOffsets 2 = .ok [0, 16, 32] := by
    obtain ⟨first, size, align, hspan, halike, -, hoffsets⟩ :=
      (collections_stride hmodels tiled_shaped hsmall harray).1 hkind
    rw [hcount] at hspan halike hoffsets
    obtain ⟨rfl, -⟩ := Span.mk.inj (Except.ok.inj (hspan.symm.trans hmembers))
    obtain rfl := Except.ok.inj ((halike.size 0 (by decide)).symm.trans htile)
    obtain rfl := Except.ok.inj ((halike.alignment 0 (by decide)).symm.trans htileAlign)
    exact hoffsets (by decide)
  have hsecond : m.memberOffsets 3 = .ok [0, 1, 2, 4, 6, 8] := by
    obtain ⟨first, size, align, size', align', hspan, hkeys, hvalues, -, hoffsets⟩ :=
      (collections_stride hmodels tiled_shaped hsmall hdictionary).2 hkind'
    rw [hcount'] at hspan hkeys hvalues hoffsets
    obtain ⟨rfl, -⟩ := Span.mk.inj (Except.ok.inj (hspan.symm.trans hmembers'))
    obtain rfl := Except.ok.inj ((hkeys.size 0 (by decide)).symm.trans hkey)
    obtain rfl := Except.ok.inj ((hkeys.alignment 0 (by decide)).symm.trans hkeyAlign)
    obtain rfl := Except.ok.inj ((hvalues.size 0 (by decide)).symm.trans hvalue)
    obtain rfl := Except.ok.inj ((hvalues.alignment 0 (by decide)).symm.trans hvalueAlign)
    exact (hoffsets (by decide)).mpr (.inr (.inl (by decide)))
  exact ⟨root, m, array, dictionary, hsolved, tiled_shaped, hsmall, ⟨harray, hkind, hfirst⟩,
    hdictionary, hkind', hsecond⟩

/-- A custom struct without bytes, which is aligned nevertheless. -/
def hollow : CustomStruct := ⟨"Hollow", 0, 8, [], [], []⟩

/-- A dictionary with one entry, of a key that leaves no more than seven bytes of a word and a value without bytes. -/
def vastKeys : DataUnit :=
  ⟨"vast", ⟨"Root", [⟨"m_vast", .dictionary (.custom "Vast") (.custom "Hollow"),
    .dictionary [(.custom vast, .custom hollow)]⟩]⟩⟩

/-- The data unit has two custom structs and no enumeration. -/
theorem vastKeys_shaped : (Value.dataUnit vastKeys).ShapedByName := by
  refine Value.shapedByName_of_mem [vast, hollow] [] (fun c h => ?_) (fun e h => ?_) (by decide) (by decide)
  · have hin := Value.hasCustom_iff.mp h
    simpa (disch := decide) [vastKeys, Value.in_of_isLeaf] using hin
  · rcases h with ⟨v, h⟩ | ⟨object, field, h, mem, hmentions⟩
    · simp (disch := decide) [vastKeys, Value.in_of_isLeaf] at h
    · have hobject : object = vastKeys.root := by
        simpa (disch := decide) [vastKeys, Value.in_of_isLeaf] using h
      subst hobject
      obtain rfl := List.mem_singleton.mp mem
      rcases hmentions with hmentions | hmentions <;> cases hmentions

/-- The value would stand behind the key, where the block ends, at an offset of 32 bits, but the layout of the
dictionary is a fault. -/
theorem exists_unplaced : ∃ root m c, solvedModel {} .standard vastKeys = .ok (root, m) ∧
    (Value.dataUnit vastKeys).ShapedByName ∧ m.size < Model.indexLimit ∧
    m.row 2 = .ok c ∧ c.kind = .dictionary ∧ c.count = 1 ∧ m.members 2 = .ok ⟨3, 2⟩ ∧
    m.AlikeFrom 3 1 0xfffffff8 8 ∧ m.AlikeFrom 4 1 0 8 ∧
    roundUp (seriesEnd 0 1 0xfffffff8 8) 8 = 0xfffffff8 ∧
    Model.dictionaryLength 1 0xfffffff8 8 0 8 = 0xfffffff8 ∧ 0xfffffff8 < wordLimit ∧
    m.memberOffsets 2 = .error .overflow := by
  have hcheck : (solvedModel {} .standard vastKeys).toOption.any (fun x => x.2.size < Model.indexLimit &&
      (x.2.row 2).toOption.any (fun c => c.kind = .dictionary && c.count = 1) &&
      (x.2.members 2).toOption = some ⟨3, 2⟩ &&
      (x.2.byteSize 3).toOption = some 0xfffffff8 && (x.2.alignment 3).toOption = some 8 &&
      (x.2.byteSize 4).toOption = some 0 && (x.2.alignment 4).toOption = some 8 &&
      decide (x.2.memberOffsets 2 = .error .overflow)) = true := by
    decide +kernel
  simp only [Option.any_eq_true, Bool.and_eq_true, decide_eq_true_eq, toOption_eq_some, Prod.exists,
    and_assoc] at hcheck
  obtain ⟨root, m, hsolved, hsmall, ⟨c, hrow, hkind, hcount⟩, hmembers, hkey, hkeyAlign, hvalue, hvalueAlign, hfault⟩ :=
    hcheck
  exact ⟨root, m, c, hsolved, vastKeys_shaped, hsmall, hrow, hkind, hcount, hmembers,
    Model.alikeFrom_one hkey hkeyAlign (by decide) (by decide),
    Model.alikeFrom_one hvalue hvalueAlign (by decide) (by decide), by decide, by decide, by decide, hfault⟩

end Options

end ObjectPack
