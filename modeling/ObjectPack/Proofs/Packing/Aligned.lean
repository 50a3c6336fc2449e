import ObjectPack.Proofs.Packing.Named

/-!
# Blocks are as aligned as their rows

A block is as aligned as the most aligned of its rows.  For objects the layout takes the maximum of all rows; for
collections it only looks at the first elements, which is enough because elements of one series have one alignment
(`Model.alignment_eq_of_together`).  For this, structs and enumerations of one name have to be aligned alike
(`Value.AlignsByName`).  With alignments that are powers of two, the alignment of every row then divides that of
its block and its offset in the block (`Model.exists_alignment_of_offset`).
-/

namespace ObjectPack

open Outcome

/-- Whether the alignments of custom values are powers of two, and those of custom values and of enumerations are
decided by their names, all over a value. -/
structure Value.AlignsByName (whole : Value) : Prop where
  powers : ∀ c, whole.HasCustom c → isPowerOfTwo c.alignment = true
  customs : ∀ c c', whole.HasCustom c → whole.HasCustom c' → c.name = c'.name → c.alignment = c'.alignment
  enums : ∀ e e', whole.HasEnum e → whole.HasEnum e' → e.name = e'.name → e.underlying = e'.underlying

/-! ### Alignments of rows -/

namespace Row

variable {whole : Value} {x y : Row} {base : Option String} {a : Nat}

/-- Whatever a collection owns belongs to one of its series. -/
theorem exists_series {c : Row} {j : Nat} (kind : c.kind = .array ∨ c.kind = .dictionary) (owns : c.Owns j) :
    ∃ first base, c.Series first base ∧ first ≤ j ∧ j < first + c.count := by
  obtain ⟨start, hstart, hlow, hhigh⟩ := owns
  rcases kind with kind | kind
  · have hcount : c.ownedCount = c.count := by rw [ownedCount, kind]
    exact ⟨start, _, .elements kind hstart, hlow, hcount ▸ hhigh⟩
  · have hcount : c.ownedCount = 2 * c.count := by rw [ownedCount, kind]
    by_cases hkeys : j < start + c.count
    · exact ⟨start, _, .keys kind hstart, hlow, hkeys⟩
    · exact ⟨start + c.count, _, .values kind hstart, Nat.le_of_not_lt hkeys, by omega⟩

/-- Rows that are named have alignments that are powers of two. -/
theorem Named.isPowerOfTwo (named : x.Named whole) (aligns : whole.AlignsByName) (h : x.alignment? = some a) :
    isPowerOfTwo a = true := by
  by_cases hstruct : x.kind = .struct
  · obtain ⟨c, hvalue, -, hc⟩ := named.custom hstruct
    rw [alignment?, hstruct, hvalue] at h
    cases h
    exact aligns.powers c hc
  by_cases henum : x.kind = .enum
  · obtain ⟨e, v, hvalue, -⟩ := named.enum henum
    rw [alignment?, henum, hvalue] at h
    cases h
    exact (isPowerOfTwo_alignment (ofFormat_ne rfl).symm (ofFormat_ne rfl).symm).1
  · rw [alignment?_of_ne hstruct henum] at h
    cases h
    exact (isPowerOfTwo_alignment henum hstruct).1

/-- Where neither objects nor collections match, they have one type name. -/
theorem Matches.typeName_eq (h : x.Matches base y) (hx : x.value.isNull = false) (hy : y.value.isNull = false)
    (object : x.kind ≠ .object) (array : x.kind ≠ .array) (dictionary : x.kind ≠ .dictionary) :
    x.typeName = y.typeName :=
  (h.typeName hx hy array dictionary).resolve_right fun hobject => object hobject.1

/-- Of what matches, structs have one name, and so have enumerations. -/
theorem Named.cases (hx : x.Named whole) (hy : y.Named whole) (h : x.Matches base y) :
    (x.kind ≠ .struct ∧ x.kind ≠ .enum) ∨
    (∃ c c', x.kind = .struct ∧ x.value = .struct c ∧ y.value = .struct c' ∧ whole.HasCustom c ∧ whole.HasCustom c' ∧
      c.name = c'.name) ∨
    ∃ e v e' v', x.kind = .enum ∧ x.value = .enum e v ∧ y.value = .enum e' v' ∧ whole.HasEnum e ∧ whole.HasEnum e' ∧
      e.name = e'.name := by
  by_cases hstruct : x.kind = .struct
  · obtain ⟨c, hvalue, hname, hc⟩ := hx.custom hstruct
    obtain ⟨c', hvalue', hname', hc'⟩ := hy.custom (h.kind ▸ hstruct)
    have htypes : x.typeName = y.typeName := by
      refine h.typeName_eq (by rw [hvalue]; rfl) (by rw [hvalue']; rfl) ?_ ?_ ?_ <;> rw [hstruct] <;> decide
    have hsame : c.name = c'.name := Option.some.inj (hname.symm.trans (htypes.trans hname'))
    exact .inr (.inl ⟨c, c', hstruct, hvalue, hvalue', hc, hc', hsame⟩)
  by_cases henum : x.kind = .enum
  · obtain ⟨e, v, hvalue, hname, he⟩ := hx.enum henum
    obtain ⟨e', v', hvalue', hname', he'⟩ := hy.enum (h.kind ▸ henum)
    have htypes : x.typeName = y.typeName := by
      refine h.typeName_eq (by rw [hvalue]; rfl) (by rw [hvalue']; rfl) ?_ ?_ ?_ <;> rw [henum] <;> decide
    have hsame : e.name = e'.name := Option.some.inj (hname.symm.trans (htypes.trans hname'))
    exact .inr (.inr ⟨e, v, e', v', henum, hvalue, hvalue', he, he', hsame⟩)
  · exact .inl ⟨hstruct, henum⟩

/-- Rows that match have one alignment. -/
theorem Named.alignment?_eq (hx : x.Named whole) (hy : y.Named whole) (aligns : whole.AlignsByName)
    (h : x.Matches base y) : x.alignment? = y.alignment? := by
  rcases hx.cases hy h with ⟨hstruct, henum⟩ | ⟨c, c', hkind, hvalue, hvalue', hc, hc', hsame⟩ |
    ⟨e, v, e', v', hkind, hvalue, hvalue', he, he', hsame⟩
  · rw [alignment?_of_ne hstruct henum, alignment?_of_ne (h.kind ▸ hstruct) (h.kind ▸ henum), h.kind]
  · rw [alignment?, alignment?, ← h.kind, hkind, hvalue, hvalue']
    exact congrArg some (aligns.customs c c' hc hc' hsame)
  · rw [alignment?, alignment?, ← h.kind, hkind, hvalue, hvalue']
    exact congrArg (fun kind => some kind.alignment) (aligns.enums e e' he he' hsame)

end Row

namespace Model

variable {m : Model} {i j k n : Nat} {whole : Value} {span : Span} {base : Option String}

/-- Elements of one series have one alignment. -/
theorem alignment_eq_of_together (matched : m.Matched) (fits : m.AllFit) (named : m.Named whole)
    (aligns : whole.AlignsByName) (h : m.Together base j k) : m.alignment j = m.alignment k := by
  obtain ⟨i, c, first, hc, hseries, ⟨hlow, hhigh⟩, hlow', hhigh'⟩ := h
  have hrows := matched i c first base hc hseries
  have hblock : m.OwnsBlock i := ⟨c, hc, .inr hseries.collection⟩
  obtain ⟨x, hx⟩ := exists_row_of_lt (Nat.lt_of_lt_of_le hhigh hrows.inside)
  obtain ⟨y, hy⟩ := exists_row_of_lt (Nat.lt_of_lt_of_le hhigh' hrows.inside)
  have hxnamed := named i j c x hblock hc (hseries.owns hlow hhigh) hx
  have hynamed := named i k c y hblock hc (hseries.owns hlow' hhigh') hy
  have hsame := hxnamed.alignment?_eq hynamed aligns (hrows.pair j k x y hlow hhigh hlow' hhigh' hx hy)
  obtain ⟨a, ha⟩ := (fits j x hx).exists_alignment
  rw [alignment_eq hx ha, alignment_eq hy (hsame ▸ ha)]

/-! ### Alignments of blocks -/

/-- None of some alignments is greater than the greatest of them. -/
theorem le_greatestAlignment {greatest last : Nat}
    (h : Span.foldFrom (fun greatest i => (m.alignment i).map (max greatest)) n i greatest = .ok last) :
    greatest ≤ last ∧ ∀ k < n, ∃ a, m.alignment (i + k) = .ok a ∧ a ≤ last := by
  induction n generalizing i greatest with
  | zero =>
    cases h
    exact ⟨Nat.le_refl _, nofun⟩
  | succ n ih =>
    obtain ⟨_, hfirst, hrest⟩ := Span.foldFrom_succ_eq_ok.mp h
    obtain ⟨a, ha, rfl⟩ := map_eq_ok.mp hfirst
    obtain ⟨hle, hothers⟩ := ih hrest
    refine ⟨Nat.le_trans (Nat.le_max_left _ _) hle, fun k hk => ?_⟩
    cases k with
    | zero => exact ⟨a, ha, Nat.le_trans (Nat.le_max_right _ _) hle⟩
    | succ k =>
      rw [← Nat.add_assoc, Nat.add_right_comm]
      exact hothers k (Nat.lt_of_succ_lt_succ hk)

/-- The first element of every series of a collection is no more aligned than the block. -/
theorem le_blockAlignment_of_series {c : Row} {first alignment : Nat} (hrow : m.row i = .ok c)
    (h : m.blockAlignment i = .ok alignment) (series : c.Series first base) (some : c.count ≠ 0) :
    ∃ a, m.alignment first = .ok a ∧ a ≤ alignment := by
  unfold blockAlignment at h
  simp only [hrow, bind_eq_ok, Except.ok.injEq, exists_eq_left'] at h
  have hmax : max c.count 1 = c.count := by omega
  cases series with
  | elements kind start =>
    simp only [kind, Row.firstElements, start, bind_eq_ok, Except.ok.injEq, exists_eq_left'] at h
    exact ⟨alignment, h, Nat.le_refl _⟩
  | keys kind start =>
    simp only [kind, Row.firstElements, start, bind_eq_ok, pure_eq_ok] at h
    obtain ⟨_, ⟨_, -, rfl⟩, h⟩ := h
    simp only [bind_eq_ok, pure_eq_ok] at h
    obtain ⟨a, ha, b, -, rfl⟩ := h
    exact ⟨a, ha, Nat.le_max_left a b⟩
  | @values start kind hstart =>
    simp only [kind, Row.firstElements, hstart, bind_eq_ok, pure_eq_ok] at h
    obtain ⟨_, ⟨keys, hkeys, rfl⟩, h⟩ := h
    obtain ⟨-, rfl⟩ := spanFrom_eq_ok.mp hkeys
    simp only [bind_eq_ok, pure_eq_ok, Span.stop, hmax] at h
    obtain ⟨a, -, b, hb, rfl⟩ := h
    exact ⟨b, hb, Nat.le_max_right a b⟩

/-- No row is more aligned than its block, if the elements of every series have one alignment. -/
theorem le_blockAlignment {alignment : Nat} (owns : m.OwnsBlock i)
    (alike : ∀ base j k, m.Together base j k → m.alignment j = m.alignment k)
    (h : m.blockAlignment i = .ok alignment) (members : m.members i = .ok span) (hk : k < span.length) :
    ∃ a, m.alignment (span.start + k) = .ok a ∧ a ≤ alignment := by
  obtain ⟨row, hrow, hkind⟩ := owns
  rw [members_eq hrow] at members
  rcases hkind with hkind | hkind
  · have hsome : span.length ≠ 0 := Nat.ne_of_gt (Nat.zero_lt_of_lt hk)
    unfold blockAlignment at h
    simp only [hrow, hkind, members, bind_eq_ok, Except.ok.injEq, exists_eq_left', if_neg hsome] at h
    exact (le_greatestAlignment h).2 k hk
  · have howns := (Row.owns_iff members _).mpr ⟨k, hk, rfl⟩
    obtain ⟨first, base, hseries, hlow, hhigh⟩ := Row.exists_series hkind howns
    obtain ⟨a, ha, hle⟩ := le_blockAlignment_of_series hrow h hseries (by omega)
    refine ⟨a, (alike base _ _ ⟨i, row, first, hrow, hseries, ⟨hlow, hhigh⟩, Nat.le_refl _, ?_⟩).trans ha, hle⟩
    omega

/-- Rows that are placed stand at multiples of their alignments. -/
theorem RowsPlaced.dvd {position stop : Nat} {starts : List Nat} (h : m.RowsPlaced i position starts stop) :
    ∀ k start a, starts[k]? = some start → m.alignment (i + k) = .ok a → isPowerOfTwo a = true → a ∣ start := by
  induction h with
  | nil => nofun
  | cons placed _ ih =>
    rintro (_ | k) start a hk ha hpower
    · cases hk
      unfold placeRow at placed
      simp only [bind_eq_ok, pure_eq_ok, Prod.mk.injEq] at placed
      obtain ⟨_, ha', _, hstart, _, -, _, -, rfl, -⟩ := placed
      obtain rfl := Except.ok.inj (ha.symm.trans ha')
      exact (alignUp_spec hpower hstart).1
    · rw [← Nat.add_assoc, Nat.add_right_comm] at ha
      exact ih k start a hk ha hpower

/-- The alignment of every row in a block divides its offset and the alignment of the block. -/
theorem exists_alignment_of_offset {alignment stop : Nat} {starts : List Nat} (matched : m.Matched)
    (fits : m.AllFit) (named : m.Named whole) (aligns : whole.AlignsByName) (block : m.OwnsBlock i)
    (halignment : m.blockAlignment i = .ok alignment) (power : isPowerOfTwo alignment = true)
    (members : m.members i = .ok span) (length : starts.length = span.length)
    (placed : m.RowsPlaced span.start 0 starts stop) {start : Nat} (hk : starts[k]? = some start) :
    ∃ a, m.alignment (span.start + k) = .ok a ∧ a ∣ start ∧ a ∣ alignment := by
  have hlt : k < span.length := length ▸ (List.getElem?_eq_some_iff.mp hk).1
  have alike : ∀ base j k, m.Together base j k → m.alignment j = m.alignment k := fun _ _ _ htogether =>
    alignment_eq_of_together matched fits named aligns htogether
  obtain ⟨a, ha, hle⟩ := le_blockAlignment block alike halignment members hlt
  -- A row of the block has an alignment that is a power of two, because it goes by its name.
  have hpower : isPowerOfTwo a = true := by
    obtain ⟨owner, howner, -⟩ := id block
    rw [members_eq howner] at members
    have howns := (Row.owns_iff members _).mpr ⟨k, hlt, rfl⟩
    obtain ⟨row, hrow, -⟩ := bind_eq_ok.mp ha
    exact (named i _ owner row block howner howns hrow).isPowerOfTwo aligns (alignment_eq_ok hrow ha)
  exact ⟨a, ha, placed.dvd k start a hk ha hpower, dvd_of_isPowerOfTwo hpower power hle⟩

end Model

end ObjectPack
