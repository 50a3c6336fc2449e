import ObjectPack.Proofs.Model.Ranked

/-!
# Blocks without gaps

The fields of an object are sorted by descending alignment, and alignments are powers of two, so whatever stands in
front of a field is a multiple of its alignment, as long as every size is a multiple of the alignment that goes with
it (`Row.Stackable`).  Then nothing is padded between fields (`Model.RowsPlaced.stacked`), and the block is as aligned
as its first field.  In any other order the fields take at least as many bytes, and the block is as aligned, so none is
shorter (`Model.HasRange.roundUp_bytesOf_le`).  All this is a matter of whole numbers; that the layout is computed in
words of 32 bits decides on whether there is one (`Model.HasRange.compact_iff`).
-/

namespace ObjectPack

open Outcome

/-! ### Sizes that are multiples of alignments -/

/-- Whether values of a custom struct can stand one behind the other without gaps: they are aligned to a power of two,
and their size is a multiple of it. -/
def CustomStruct.Stackable (c : CustomStruct) : Prop := isPowerOfTwo c.alignment = true ∧ c.alignment ∣ c.size

/-- Most kinds have a size that is a multiple of their alignment. -/
theorem Kind.alignment_dvd_byteSize (kind : Kind) : kind.alignment ∣ kind.byteSize := by
  cases kind <;> decide

namespace Row

/-- The size of a row, zero where it has none. -/
def width (r : Row) : Nat := r.size?.getD 0

/-- The alignment of a row, zero where it has none. -/
def step (r : Row) : Nat := r.alignment?.getD 0

/-- Whether a row has a size and an alignment, which is a power of two and divides the size. -/
structure Stackable (r : Row) : Prop where
  size : r.size? = some r.width
  alignment : r.alignment? = some r.step
  power : isPowerOfTwo r.step = true
  dvd : r.step ∣ r.width

variable {r a b : Row}

theorem stackable_of_eq (size alignment : Nat) (hsize : r.size? = some size)
    (halignment : r.alignment? = some alignment) (power : isPowerOfTwo alignment = true) (dvd : alignment ∣ size) :
    r.Stackable := by
  have hwidth : r.width = size := by rw [width, hsize, Option.getD_some]
  have hstep : r.step = alignment := by rw [step, halignment, Option.getD_some]
  exact ⟨by rw [hwidth, hsize], by rw [hstep, halignment], hstep ▸ power, by rwa [hwidth, hstep]⟩

/-- Rows of a model stack if the custom structs among them do. -/
theorem Fits.stackable (fits : r.Fits) (structs : ∀ c, r.value = .struct c → c.Stackable) : r.Stackable := by
  by_cases henum : r.kind = .enum
  · obtain ⟨e, v, hvalue⟩ := fits.exists_enum henum
    refine stackable_of_eq e.underlying.byteSize e.underlying.alignment ?_ ?_ ?_ ?_
    · rw [size?, henum, hvalue]
      rfl
    · rw [alignment?, henum, hvalue]
      rfl
    · exact (isPowerOfTwo_alignment (ofFormat_ne rfl).symm (ofFormat_ne rfl).symm).1
    · exact Kind.alignment_dvd_byteSize _
  by_cases hstruct : r.kind = .struct
  · cases hvalue : r.value with
    | struct c =>
      obtain ⟨hpower, hdvd⟩ := structs c hvalue
      refine stackable_of_eq c.size c.alignment ?_ ?_ hpower hdvd
      · rw [size?, hstruct, hvalue]
        rfl
      · rw [alignment?, hstruct, hvalue]
        rfl
    | _ =>
      -- A custom struct without a value takes no bytes.
      refine stackable_of_eq 0 1 ?_ ?_ (by decide) (by decide)
      · rw [size?, hstruct, hvalue]
        rfl
      · rw [alignment?, hstruct, hvalue]
        rfl
  · exact stackable_of_eq _ _ (size?_of_ne hstruct henum) (alignment?_of_ne hstruct henum)
      (isPowerOfTwo_alignment henum hstruct).1 (Kind.alignment_dvd_byteSize _)

/-- A field that stands in front of another one is no less aligned. -/
theorem Before.step_le (h : a.Before b) : b.step ≤ a.step := by
  by_contra hless
  refine h ?_
  show (compare b.step a.step).then _ = .gt
  rw [Nat.compare_eq_gt.mpr (Nat.lt_of_not_le hless)]
  rfl

end Row

namespace Model

variable {m : Model} {i j p stop size : Nat} {owner r : Row} {span : Span} {l : List Row} {starts : List Nat}

/-- Whether some rows stand in a table one after another from row `i` on. -/
def RowsFrom (m : Model) (i : Nat) (l : List Row) : Prop := ∀ k r, l[k]? = some r → m.row (i + k) = .ok r

theorem RowsFrom.head (h : m.RowsFrom i (r :: l)) : m.row i = .ok r := h 0 r rfl

theorem RowsFrom.tail (h : m.RowsFrom i (r :: l)) : m.RowsFrom (i + 1) l := by
  intro k s hs
  rw [Nat.add_right_comm]
  exact h (k + 1) s hs

/-! ### Descending alignments -/

/-- How many bytes some rows take without padding. -/
def bytesOf (l : List Row) : Nat := (l.map Row.width).sum

@[simp] theorem bytesOf_cons (r : Row) (l : List Row) : bytesOf (r :: l) = r.width + bytesOf l := rfl

/-- Whether rows can be placed from position `p` on without gaps: their alignments descend, and divide the position. -/
structure Descends (p : Nat) (l : List Row) : Prop where
  each : ∀ r ∈ l, r.Stackable
  descending : l.Pairwise fun a b => b.step ≤ a.step
  aligned : ∀ r ∈ l, r.step ∣ p

/-- Behind the first row stand the others without gaps. -/
theorem Descends.tail (h : Descends p (r :: l)) : Descends (p + r.width) l where
  each s hs := h.each s (List.mem_cons_of_mem _ hs)
  descending := (List.pairwise_cons.mp h.descending).2
  aligned s hs := by
    have hfirst := h.each r List.mem_cons_self
    have hlater := h.each s (List.mem_cons_of_mem _ hs)
    have hle := (List.pairwise_cons.mp h.descending).1 s hs
    have hsteps := dvd_of_isPowerOfTwo hlater.power hfirst.power hle
    exact Nat.dvd_add (h.aligned s (List.mem_cons_of_mem _ hs)) (Nat.dvd_trans hsteps hfirst.dvd)

/-- The first row is placed where the position is. -/
theorem Descends.placeRow_eq_ok_iff {start next : Nat} (h : Descends p (r :: l)) (hrow : m.row i = .ok r) :
    m.placeRow p i = .ok (start, next) ↔ start = p ∧ next = p + r.width ∧
      (r.step ≤ 1 ∨ p + r.step < wordLimit) ∧ p + r.width < wordLimit := by
  have hfirst := h.each r List.mem_cons_self
  refine (placeRow_sized_iff (alignment_eq hrow hfirst.alignment) (byteSize_eq hrow hfirst.size)).trans ?_
  rw [roundUp_of_dvd hfirst.power (h.aligned r List.mem_cons_self)]

/-- Rows whose alignments descend are placed without gaps. -/
theorem RowsPlaced.stacked (h : m.RowsPlaced i p starts stop) (rows : m.RowsFrom i l) (descends : Descends p l)
    (length : starts.length = l.length) :
    stop = p + bytesOf l ∧ ∀ k start, starts[k]? = some start → start = p + bytesOf (l.take k) := by
  induction h generalizing l with
  | nil =>
    obtain rfl := List.eq_nil_of_length_eq_zero length.symm
    exact ⟨rfl, nofun⟩
  | @cons i p start next stop starts placed _ ih =>
    obtain ⟨r, l, rfl⟩ := List.exists_cons_of_length_eq_add_one length.symm
    obtain ⟨rfl, rfl, -, -⟩ := (descends.placeRow_eq_ok_iff rows.head).mp placed
    obtain ⟨hstop, hstarts⟩ := ih rows.tail descends.tail (Nat.succ.inj length)
    refine ⟨hstop.trans (Nat.add_assoc ..), fun k start hk => ?_⟩
    cases k with
    | zero => exact (Option.some.inj hk).symm
    | succ k => exact (hstarts k start hk).trans (Nat.add_assoc ..)

/-- Rows whose alignments descend can be placed if their end, rounded up, stays in its word. -/
theorem exists_stacked (rows : m.RowsFrom i l) (descends : Descends p l) (ends : p + bytesOf l < wordLimit)
    (fits : ∀ r ∈ l, r.step ≤ 1 ∨ p + bytesOf l + r.step < wordLimit) :
    ∃ starts, starts.length = l.length ∧ m.RowsPlaced i p starts (p + bytesOf l) := by
  induction l generalizing i p with
  | nil => exact ⟨[], rfl, .nil i p⟩
  | cons r l ih =>
    rw [bytesOf_cons, ← Nat.add_assoc] at ends fits ⊢
    obtain ⟨starts, hlength, hplaced⟩ :=
      ih rows.tail descends.tail ends fun s hs => fits s (List.mem_cons_of_mem _ hs)
    refine ⟨p :: starts, congrArg (· + 1) hlength, .cons ?_ hplaced⟩
    have hroom := fits r List.mem_cons_self
    exact (descends.placeRow_eq_ok_iff rows.head).mpr
      ⟨rfl, rfl, hroom.imp_right fun hroom => by omega, by omega⟩

/-- Rows that are placed end in their word. -/
theorem RowsPlaced.lt_wordLimit (h : m.RowsPlaced i p starts stop) (nonempty : starts ≠ []) : stop < wordLimit := by
  induction h with
  | nil => exact absurd rfl nonempty
  | @cons i p start next stop starts placed rest ih =>
    cases rest with
    | nil =>
      obtain ⟨_, _, -, -, -, -, -, hlt⟩ := placeRow_eq_ok_iff.mp placed
      exact hlt
    | cons _ _ => exact ih (List.cons_ne_nil _ _)

/-! ### Other orders -/

/-- Rows take at least as many bytes as they have. -/
theorem RowsPlaced.bytesOf_le (h : m.RowsPlaced i p starts stop) (rows : m.RowsFrom i l) (each : ∀ r ∈ l, r.Stackable)
    (length : starts.length = l.length) : p + bytesOf l ≤ stop := by
  induction h generalizing l with
  | nil =>
    obtain rfl := List.eq_nil_of_length_eq_zero length.symm
    exact Nat.le_refl _
  | cons placed _ ih =>
    obtain ⟨r, l, rfl⟩ := List.exists_cons_of_length_eq_add_one length.symm
    obtain ⟨hle, size, hsize, rfl⟩ := placeRow_byteSize placed
    obtain rfl := Except.ok.inj
      ((byteSize_eq rows.head (each r List.mem_cons_self).size).symm.trans hsize)
    have hrest := ih rows.tail (fun s hs => each s (List.mem_cons_of_mem _ hs)) (Nat.succ.inj length)
    rw [bytesOf_cons]
    omega

/-- The greatest alignment of some rows. -/
def greatestStep (l : List Row) : Nat := (l.map Row.step).foldl max 0

theorem greatestStep_perm {l' : List Row} (perm : l'.Perm l) : greatestStep l' = greatestStep l :=
  (perm.map Row.step).foldl_eq 0

/-- What is no less than any of some numbers stays the greatest. -/
theorem foldl_max_of_le {greatest : Nat} {numbers : List Nat} (h : ∀ n ∈ numbers, n ≤ greatest) :
    numbers.foldl max greatest = greatest := by
  induction numbers with
  | nil => rfl
  | cons n numbers ih =>
    rw [List.foldl_cons, Nat.max_eq_left (h n List.mem_cons_self)]
    exact ih fun k hk => h k (List.mem_cons_of_mem _ hk)

/-- The first of some rows whose alignments descend is the most aligned. -/
theorem greatestStep_cons (descending : (r :: l).Pairwise fun a b => b.step ≤ a.step) :
    greatestStep (r :: l) = r.step ∧ ∀ s ∈ r :: l, s.step ≤ r.step := by
  have hlater := (List.pairwise_cons.mp descending).1
  constructor
  · rw [greatestStep, List.map_cons, List.foldl_cons, Nat.zero_max]
    refine foldl_max_of_le fun n hn => ?_
    obtain ⟨s, hs, rfl⟩ := List.mem_map.mp hn
    exact hlater s hs
  · intro s hs
    rcases List.mem_cons.mp hs with rfl | hs
    · exact Nat.le_refl _
    · exact hlater s hs

theorem foldFrom_alignment (rows : m.RowsFrom i l) (each : ∀ r ∈ l, r.Stackable) (greatest : Nat) :
    Span.foldFrom (fun greatest i => (m.alignment i).map (max greatest)) l.length i greatest =
      .ok ((l.map Row.step).foldl max greatest) := by
  induction l generalizing i greatest with
  | nil => rfl
  | cons r l ih =>
    have hfirst := alignment_eq rows.head (each r List.mem_cons_self).alignment
    exact Span.foldFrom_succ_eq_ok.mpr
      ⟨_, map_eq_ok.mpr ⟨_, hfirst, rfl⟩, ih rows.tail (fun s hs => each s (List.mem_cons_of_mem _ hs)) _⟩

/-! ### Blocks of objects -/

namespace HasRange

variable (range : m.HasRange i owner span)

include range

theorem rowsFrom : m.RowsFrom span.start (m.fields owner) := fun _ _ => range.row_field

theorem blockAlignment (each : ∀ r ∈ m.fields owner, r.Stackable) (nonempty : span.length ≠ 0) :
    m.blockAlignment i = .ok (greatestStep (m.fields owner)) := by
  unfold Model.blockAlignment
  simp only [range.object.1, range.object.2, range.members, bind_eq_ok, Except.ok.injEq, exists_eq_left',
    if_neg nonempty]
  have hfold := foldFrom_alignment range.rowsFrom each 0
  rwa [range.length_fields] at hfold

/-- The size of the block is where the fields end, rounded up to its alignment. -/
theorem blockSize_eq_ok_iff : m.blockSize i = .ok size ↔ ∃ starts stop alignment, starts.length = span.length ∧
    m.RowsPlaced span.start 0 starts stop ∧ m.blockAlignment i = .ok alignment ∧ alignUp stop alignment = .ok size := by
  constructor
  · intro h
    obtain ⟨span', extent, alignment, hspan, hextent, halignment, hsize⟩ :=
      Model.blockSize_eq_ok ⟨owner, range.object.1, Or.inl range.object.2⟩ h
    obtain rfl := Except.ok.inj (range.members_eq.symm.trans hspan)
    obtain ⟨starts, hlength, hplaced⟩ := rowsPlaced_of_extent hextent
    exact ⟨starts, extent, alignment, hlength, hplaced, halignment, hsize⟩
  · rintro ⟨starts, stop, alignment, hlength, hplaced, halignment, hsize⟩
    have hextent : m.extent span = .ok stop := by
      have hfold := hplaced.extent
      rwa [hlength] at hfold
    unfold blockSize
    simp only [range.object.1, range.object.2, range.members, hextent, halignment, bind_eq_ok, Except.ok.injEq,
      exists_eq_left']
    exact hsize

end HasRange

/-- Whether the rows that an object owns stand in its block without gaps, and the block is no longer than for any other
order of these rows.  The rows have some sizes, and the block has an alignment. -/
structure Compact (m : Model) (i : Nat) (owner : Row) (span : Span) (sizes : List Nat) (alignment : Nat) : Prop where
  offsets : ∃ offsets, m.memberOffsets i = .ok offsets ∧ offsets.length = span.length ∧
    ∀ k offset, offsets[k]? = some offset → offset = (sizes.take k).sum
  size : m.blockSize i = .ok (roundUp sizes.sum alignment)
  least : ∀ l, l.Perm (m.fields owner) → ∀ size, (m.withRows (m.replaced span l [])).blockSize i = .ok size →
    roundUp sizes.sum alignment ≤ size

namespace HasRange

variable (range : m.HasRange i owner span) (each : ∀ r ∈ m.fields owner, r.Stackable) (nonempty : span.length ≠ 0)

include range each nonempty

/-- A block of the same fields in any order is at least as long as the fields. -/
theorem roundUp_bytesOf_le (power : isPowerOfTwo (greatestStep (m.fields owner)) = true)
    (perm : l.Perm (m.fields owner)) (h : (m.withRows (m.replaced span l [])).blockSize i = .ok size) :
    roundUp (bytesOf (m.fields owner)) (greatestStep (m.fields owner)) ≤ size := by
  have hlength : l.length = span.length := perm.length_eq.trans range.length_fields
  have range' := range.withRows hlength
  have hfields := range.fields_withRows hlength
  have heach : ∀ r ∈ l, r.Stackable := fun r hr => each r (perm.mem_iff.mp hr)
  obtain ⟨starts, stop, alignment, hstarts, hplaced, halignment, hsize⟩ := range'.blockSize_eq_ok_iff.mp h
  have hrows := range'.rowsFrom
  have hblock := range'.blockAlignment (by rwa [hfields]) nonempty
  rw [hfields] at hrows hblock
  have hle := hplaced.bytesOf_le hrows heach (hstarts.trans hlength.symm)
  have hbytes : bytesOf l = bytesOf (m.fields owner) := (perm.map Row.width).sum_eq
  rw [hblock, greatestStep_perm perm] at halignment
  obtain rfl := Except.ok.inj halignment
  obtain ⟨hdvd, hstop, -⟩ := alignUp_spec power hsize
  exact roundUp_le power hdvd (by omega)

/-- A block of fields with descending alignments is compact iff its bytes stay in their word when they are rounded
up. -/
theorem compact_iff (descending : (m.fields owner).Pairwise fun a b => b.step ≤ a.step) :
    m.Compact i owner span ((m.fields owner).map Row.width) (greatestStep (m.fields owner)) ↔
      bytesOf (m.fields owner) < wordLimit ∧
        (greatestStep (m.fields owner) ≤ 1 ∨ bytesOf (m.fields owner) + greatestStep (m.fields owner) < wordLimit) := by
  have descends : Descends 0 (m.fields owner) := ⟨each, descending, fun _ _ => Nat.dvd_zero _⟩
  have hblock := range.blockAlignment each nonempty
  constructor
  · intro h
    obtain ⟨starts, stop, alignment, hlength, hplaced, halignment, hsize⟩ := range.blockSize_eq_ok_iff.mp h.size
    obtain rfl := Except.ok.inj (hblock.symm.trans halignment)
    obtain ⟨rfl, -⟩ := hplaced.stacked range.rowsFrom descends (hlength.trans range.length_fields.symm)
    rw [Nat.zero_add] at hplaced hsize
    refine ⟨hplaced.lt_wordLimit ?_, (alignUp_eq_ok_iff.mp hsize).2⟩
    rintro rfl
    exact nonempty hlength.symm
  · rintro ⟨hends, hfits⟩
    obtain ⟨r, l, hcons⟩ := List.exists_cons_of_length_pos
      (show 0 < (m.fields owner).length from range.length_fields ▸ Nat.pos_of_ne_zero nonempty)
    obtain ⟨hgreatest, hsteps⟩ := greatestStep_cons (hcons ▸ descending)
    rw [← hcons] at hgreatest hsteps
    have hpower : isPowerOfTwo (greatestStep (m.fields owner)) = true :=
      hgreatest ▸ (each r (hcons ▸ List.mem_cons_self)).power
    obtain ⟨starts, hlength, hplaced⟩ := exists_stacked range.rowsFrom descends (by omega) fun s hs => by
      have hle := hsteps s hs
      omega
    obtain ⟨-, hstarts⟩ := hplaced.stacked range.rowsFrom descends hlength
    have hcount := hlength.trans range.length_fields
    rw [Nat.zero_add] at hplaced
    exact
      { offsets := ⟨starts, OffsetsOf.memberOffsets ⟨range.members_eq, hcount, _, hplaced⟩, hcount, fun k start hk => by
          rw [hstarts k start hk, Nat.zero_add, bytesOf, List.map_take]⟩
        size := range.blockSize_eq_ok_iff.mpr
          ⟨starts, _, _, hcount, hplaced, hblock, alignUp_eq_ok_iff.mpr ⟨rfl, hfits⟩⟩
        least := fun l perm size h => range.roundUp_bytesOf_le each nonempty hpower perm h }

end HasRange

end Model

end ObjectPack
