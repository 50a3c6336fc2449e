import ObjectPack.Proofs.Model.Total

/-!
# Rows of one shape

Rows that have one size and one alignment stand at a stride when they are placed one after another, the size rounded
up to the alignment (`Model.AlikeFrom.rowsPlaced_iff`).  Whether they can be placed is a matter of the word that offsets
are computed in: the last of them has to end in it, and what stands in front of it has to have room for its alignment
(`HasRoom`).  From offset zero on the first condition is enough (`hasRoom_zero_iff`), and from other offsets on it
is enough unless the rows take no bytes (`hasRoom_iff`).
-/

namespace ObjectPack

open Outcome

/-! ### Strides -/

/-- `n` offsets from a first one on, each a stride behind the one before it. -/
def strides (first stride n : Nat) : List Nat := (List.range n).map fun k => first + k * stride

variable {position n size align : Nat}

@[simp] theorem length_strides (first stride n : Nat) : (strides first stride n).length = n := by
  rw [strides, List.length_map, List.length_range]

theorem strides_succ (first stride n : Nat) :
    strides first stride (n + 1) = first :: strides (first + stride) stride n := by
  rw [strides, List.range_succ_eq_map, List.map_cons, List.map_map, Nat.zero_mul, Nat.add_zero, strides]
  congr 1
  refine List.map_congr_left fun k _ => ?_
  rw [Function.comp_apply, Nat.succ_mul]
  omega

/-- Where the last of `n` values of one size and alignment ends that are placed one after another behind a position,
were offsets not limited. -/
def seriesEnd (position n size align : Nat) : Nat :=
  if n = 0 then position else roundUp position align + (n - 1) * roundUp size align + size

@[simp] theorem seriesEnd_zero (position size align : Nat) : seriesEnd position 0 size align = position := if_pos rfl

/-- The values behind the first one are placed behind its end. -/
theorem seriesEnd_succ (power : isPowerOfTwo align = true) (position n size : Nat) :
    seriesEnd position (n + 1) size align = seriesEnd (roundUp position align + size) n size align := by
  rw [seriesEnd, if_neg (Nat.succ_ne_zero n), Nat.add_sub_cancel]
  cases n with
  | zero => rw [seriesEnd_zero, Nat.zero_mul, Nat.add_zero]
  | succ n =>
    rw [seriesEnd, if_neg (Nat.succ_ne_zero n), Nat.add_sub_cancel,
      roundUp_add power (roundUp_spec _ power).1, Nat.succ_mul]
    omega

theorem le_seriesEnd (position n size align : Nat) : position ≤ seriesEnd position n size align := by
  have hle := le_roundUp position align
  unfold seriesEnd
  split <;> omega

/-- A series ends before another value could stand behind it. -/
theorem seriesEnd_le (position n size align : Nat) :
    seriesEnd position n size align ≤ roundUp position align + n * roundUp size align := by
  cases n with
  | zero =>
    rw [seriesEnd_zero, Nat.zero_mul]
    exact le_roundUp position align
  | succ n =>
    have hle := le_roundUp size align
    rw [seriesEnd, if_neg (Nat.succ_ne_zero n), Nat.add_sub_cancel, Nat.succ_mul]
    omega

/-- The end of a series, rounded up, is where another value would stand. -/
theorem roundUp_seriesEnd (power : isPowerOfTwo align = true) (position n size : Nat) :
    roundUp (seriesEnd position n size align) align = roundUp position align + n * roundUp size align := by
  cases n with
  | zero => rw [seriesEnd_zero, Nat.zero_mul, Nat.add_zero]
  | succ n =>
    have hstart : align ∣ roundUp position align + n * roundUp size align :=
      Nat.dvd_add (roundUp_spec _ power).1 (Nat.dvd_mul_left_of_dvd (roundUp_spec _ power).1 n)
    rw [seriesEnd, if_neg (Nat.succ_ne_zero n), Nat.add_sub_cancel, roundUp_add power hstart, Nat.succ_mul,
      Nat.add_assoc]

/-! ### Room in a word -/

/-- Whether `n` values of one size and alignment can be placed behind a position with offsets that are words: the last
of them ends in its word, and the sum that is rounded to place it stays in its word. -/
def HasRoom (position n size align : Nat) : Prop :=
  n = 0 ∨ (align ≤ 1 ∨ seriesEnd position (n - 1) size align + align < wordLimit) ∧
    seriesEnd position n size align < wordLimit

/-- There is room for some values if there is for the first one, and for the others behind it. -/
theorem hasRoom_succ (power : isPowerOfTwo align = true) : HasRoom position (n + 1) size align ↔
    (align ≤ 1 ∨ position + align < wordLimit) ∧ roundUp position align + size < wordLimit ∧
      HasRoom (roundUp position align + size) n size align := by
  have hstart := le_roundUp position align
  unfold HasRoom
  rw [Nat.add_sub_cancel, seriesEnd_succ power]
  cases n with
  | zero => simp
  | succ n =>
    have hlast := le_seriesEnd (roundUp position align + size) n size align
    have hend := le_seriesEnd (roundUp position align + size) (n + 1) size align
    rw [Nat.add_sub_cancel, seriesEnd_succ power]
    omega

/-- Values that take bytes have room where the first of them and their end have. -/
theorem hasRoom_of_ne (power : isPowerOfTwo align = true) (bytes : size ≠ 0)
    (first : align ≤ 1 ∨ position + align < wordLimit) (ends : seriesEnd position n size align < wordLimit) :
    HasRoom position n size align := by
  obtain ⟨hdvd, hle, -⟩ := roundUp_spec size power
  have hstride : align ≤ roundUp size align := Nat.le_of_dvd (by omega) hdvd
  rcases n with - | - | n
  · exact .inl rfl
  · exact .inr ⟨first, ends⟩
  · refine .inr ⟨.inr ?_, ends⟩
    rw [seriesEnd, if_neg (by omega), Nat.add_sub_cancel, Nat.succ_mul] at ends
    rw [Nat.add_sub_cancel, seriesEnd, if_neg (by omega), Nat.add_sub_cancel]
    omega

/-- Whatever ends in its word can be placed from the beginning of a block on. -/
theorem hasRoom_zero_iff (power : isPowerOfTwo align = true) (word : align < wordLimit) :
    HasRoom 0 n size align ↔ seriesEnd 0 n size align < wordLimit := by
  constructor
  · rintro (rfl | ⟨-, hend⟩)
    · rw [seriesEnd_zero]
      decide
    · exact hend
  · intro hend
    rcases Nat.eq_zero_or_pos size with rfl | hbytes
    · have hle := seriesEnd_le 0 (n - 1) 0 align
      rw [roundUp_zero, Nat.mul_zero] at hle
      exact .inr ⟨.inr (by omega), hend⟩
    · exact hasRoom_of_ne power (Nat.ne_of_gt hbytes) (.inr (by omega)) hend

/-- Where a whole number of strides stays in the word, only values that take no bytes may lack room. -/
theorem hasRoom_iff (power : isPowerOfTwo align = true)
    (fits : roundUp position align + n * roundUp size align < wordLimit) :
    HasRoom position n size align ↔
      n = 0 ∨ size ≠ 0 ∨ align ≤ 1 ∨ seriesEnd position (n - 1) size align + align < wordLimit := by
  have hend := Nat.lt_of_le_of_lt (seriesEnd_le position n size align) fits
  constructor
  · rintro (hnone | ⟨hlast, -⟩)
    · exact .inl hnone
    · exact .inr (.inr hlast)
  · rintro (hnone | hbytes | hlast)
    · exact .inl hnone
    · by_cases hnone : n = 0
      · exact .inl hnone
      · obtain ⟨hdvd, hle, -⟩ := roundUp_spec size power
        have hstride : align ≤ roundUp size align := Nat.le_of_dvd (by omega) hdvd
        have hfirst := Nat.le_mul_of_pos_left (roundUp size align) (Nat.pos_of_ne_zero hnone)
        have hstart := le_roundUp position align
        exact hasRoom_of_ne power hbytes (.inr (by omega)) hend
    · exact .inr ⟨hlast, hend⟩

/-! ### Rows -/

namespace Model

variable {m : Model} {i first stop k : Nat} {span : Span} {starts : List Nat}

/-- Whether `n` rows from row `i` on have one size and one alignment, which is a power of two and a word. -/
structure AlikeFrom (m : Model) (i n size align : Nat) : Prop where
  size : ∀ k < n, m.byteSize (i + k) = .ok size
  alignment : ∀ k < n, m.alignment (i + k) = .ok align
  power : isPowerOfTwo align = true
  word : align < wordLimit

theorem alikeFrom_one (size_eq : m.byteSize i = .ok size) (alignment_eq : m.alignment i = .ok align)
    (power : isPowerOfTwo align = true) (word : align < wordLimit) : m.AlikeFrom i 1 size align where
  size k hk := by
    obtain rfl : k = 0 := by omega
    exact size_eq
  alignment k hk := by
    obtain rfl : k = 0 := by omega
    exact alignment_eq
  power := power
  word := word

theorem AlikeFrom.tail (h : m.AlikeFrom i (n + 1) size align) : m.AlikeFrom (i + 1) n size align where
  size k hk := by
    rw [Nat.add_right_comm]
    exact h.size (k + 1) (Nat.succ_lt_succ hk)
  alignment k hk := by
    rw [Nat.add_right_comm]
    exact h.alignment (k + 1) (Nat.succ_lt_succ hk)
  power := h.power
  word := h.word

/-- The first of some rows of one shape is placed at the next multiple of the alignment. -/
theorem AlikeFrom.placeRow_eq_ok_iff {start next : Nat} (h : m.AlikeFrom i (n + 1) size align) :
    m.placeRow position i = .ok (start, next) ↔ start = roundUp position align ∧
      next = roundUp position align + size ∧ (align ≤ 1 ∨ position + align < wordLimit) ∧
        roundUp position align + size < wordLimit := by
  have hsize := h.size 0 (Nat.zero_lt_succ n)
  have halignment := h.alignment 0 (Nat.zero_lt_succ n)
  exact placeRow_sized_iff halignment hsize

/-- Rows of one shape are placed at a stride where there is room for them. -/
theorem AlikeFrom.rowsPlaced_iff (h : m.AlikeFrom i n size align) (length : starts.length = n) :
    m.RowsPlaced i position starts stop ↔ starts = strides (roundUp position align) (roundUp size align) n ∧
      stop = seriesEnd position n size align ∧ HasRoom position n size align := by
  induction n generalizing i position starts with
  | zero =>
    obtain rfl := List.eq_nil_of_length_eq_zero length
    constructor
    · intro hplaced
      cases hplaced
      exact ⟨rfl, (seriesEnd_zero _ _ _).symm, .inl rfl⟩
    · rintro ⟨-, hstop, -⟩
      rw [hstop, seriesEnd_zero]
      exact .nil i position
  | succ n ih =>
    obtain ⟨start, starts, rfl⟩ := List.exists_cons_of_length_eq_add_one length
    have hnext : roundUp (roundUp position align + size) align = roundUp position align + roundUp size align :=
      roundUp_add h.power (roundUp_spec _ h.power).1 size
    have hrest : m.RowsPlaced (i + 1) (roundUp position align + size) starts stop ↔ _ := ih h.tail (Nat.succ.inj length)
    rw [hnext] at hrest
    rw [strides_succ, seriesEnd_succ h.power, hasRoom_succ h.power, List.cons.injEq]
    constructor
    · intro hplaced
      cases hplaced with
      | cons placed rest =>
        obtain ⟨rfl, rfl, hfits, hlt⟩ := h.placeRow_eq_ok_iff.mp placed
        obtain ⟨hstarts, hstop, hroom⟩ := hrest.mp rest
        exact ⟨⟨rfl, hstarts⟩, hstop, hfits, hlt, hroom⟩
    · rintro ⟨⟨rfl, hstarts⟩, hstop, hfits, hlt, hroom⟩
      exact .cons (h.placeRow_eq_ok_iff.mpr ⟨rfl, rfl, hfits, hlt⟩) (hrest.mpr ⟨hstarts, hstop, hroom⟩)

/-- Rows of one shape followed by as many rows of another one are placed at two strides where there is room for
them. -/
theorem AlikeFrom.rowsPlaced_append_iff {size' align' : Nat} (keys : m.AlikeFrom i n size align)
    (values : m.AlikeFrom (i + n) n size' align') (length : starts.length = 2 * n) :
    m.RowsPlaced i position starts stop ↔
      starts = strides (roundUp position align) (roundUp size align) n ++
        strides (roundUp (seriesEnd position n size align) align') (roundUp size' align') n ∧
      stop = seriesEnd (seriesEnd position n size align) n size' align' ∧ HasRoom position n size align ∧
      HasRoom (seriesEnd position n size align) n size' align' := by
  constructor
  · intro hplaced
    have hfirst : (starts.take n).length = n := by
      rw [List.length_take]
      omega
    have hsecond : (starts.drop n).length = n := by
      rw [List.length_drop]
      omega
    rw [← List.take_append_drop n starts] at hplaced
    obtain ⟨middle, hkeys, hvalues⟩ := rowsPlaced_append.mp hplaced
    rw [hfirst] at hvalues
    obtain ⟨htake, rfl, hroom⟩ := (keys.rowsPlaced_iff hfirst).mp hkeys
    obtain ⟨hdrop, hstop, hroom'⟩ := (values.rowsPlaced_iff hsecond).mp hvalues
    rw [← htake, ← hdrop, List.take_append_drop]
    exact ⟨rfl, hstop, hroom, hroom'⟩
  · rintro ⟨rfl, rfl, hroom, hroom'⟩
    have hkeys := (keys.rowsPlaced_iff (length_strides _ _ _)).mpr ⟨rfl, rfl, hroom⟩
    have hvalues := (values.rowsPlaced_iff (length_strides _ _ _)).mpr ⟨rfl, rfl, hroom'⟩
    refine rowsPlaced_append.mpr ⟨_, hkeys, ?_⟩
    rwa [length_strides]

/-! ### Collections -/

/-- Elements of one shape stand at multiples of their padded size iff the last of them ends in the word. -/
theorem AlikeFrom.memberOffsets_iff (h : m.AlikeFrom first n size align) (members : m.members i = .ok ⟨first, n⟩) :
    m.memberOffsets i = .ok starts ↔
      starts = strides 0 (roundUp size align) n ∧ seriesEnd 0 n size align < wordLimit := by
  rw [memberOffsets_eq_ok, ← hasRoom_zero_iff h.power h.word]
  constructor
  · rintro ⟨span, hspan, hlength, stop, hplaced⟩
    obtain rfl := Except.ok.inj (members.symm.trans hspan)
    obtain ⟨hstarts, -, hroom⟩ := (h.rowsPlaced_iff hlength).mp hplaced
    rw [roundUp_zero] at hstarts
    exact ⟨hstarts, hroom⟩
  · rintro ⟨rfl, hroom⟩
    have hlength : (strides 0 (roundUp size align) n).length = n := length_strides _ _ _
    exact ⟨_, members, hlength, _, (h.rowsPlaced_iff hlength).mpr ⟨by rw [roundUp_zero], rfl, hroom⟩⟩

/-- Keys of one shape stand at multiples of their padded size, and values of one shape at multiples of theirs behind
the keys, iff the last key ends in the word and there is room for the values. -/
theorem AlikeFrom.memberOffsets_append_iff {size' align' : Nat} (keys : m.AlikeFrom first n size align)
    (values : m.AlikeFrom (first + n) n size' align') (members : m.members i = .ok ⟨first, 2 * n⟩) :
    m.memberOffsets i = .ok starts ↔
      starts = strides 0 (roundUp size align) n ++
        strides (roundUp (seriesEnd 0 n size align) align') (roundUp size' align') n ∧
      seriesEnd 0 n size align < wordLimit ∧ HasRoom (seriesEnd 0 n size align) n size' align' := by
  rw [memberOffsets_eq_ok, ← hasRoom_zero_iff keys.power keys.word]
  constructor
  · rintro ⟨span, hspan, hlength, stop, hplaced⟩
    obtain rfl := Except.ok.inj (members.symm.trans hspan)
    obtain ⟨hstarts, -, hroom, hroom'⟩ := (keys.rowsPlaced_append_iff values hlength).mp hplaced
    rw [roundUp_zero] at hstarts
    exact ⟨hstarts, hroom, hroom'⟩
  · rintro ⟨rfl, hroom, hroom'⟩
    refine ⟨_, members, ?_, _, (keys.rowsPlaced_append_iff values ?_).mpr ⟨?_, rfl, hroom, hroom'⟩⟩
    · rw [List.length_append, length_strides, length_strides]
      exact (Nat.two_mul n).symm
    · rw [List.length_append, length_strides, length_strides, Nat.two_mul]
    · rw [roundUp_zero]

/-! ### Sizes of blocks -/

/-- How long the block of an array is whose elements have one shape, were sizes not limited. -/
def arrayLength (n size align : Nat) : Nat := roundUp (seriesEnd 0 n size align) align

/-- How long the block of a dictionary is whose keys have one shape and whose values have one, were sizes not
limited. -/
def dictionaryLength (n size align size' align' : Nat) : Nat :=
  roundUp (seriesEnd (seriesEnd 0 n size align) n size' align') (max align align')

/-- An array is as aligned as its first element. -/
theorem blockAlignment_of_array {c : Row} (hrow : m.row i = .ok c) (kind : c.kind = .array)
    (start : c.start = some first) : m.blockAlignment i = m.alignment first := by
  unfold blockAlignment
  simp only [hrow, bind, Except.bind, kind, Row.firstElements, start]

/-- A dictionary is as aligned as its first key and its first value. -/
theorem blockAlignment_of_dictionary {c : Row} {a b : Nat} (hrow : m.row i = .ok c) (kind : c.kind = .dictionary)
    (start : c.start = some first) (some : c.count ≠ 0) (small : first + c.count < indexLimit)
    (key : m.alignment first = .ok a) (value : m.alignment (first + c.count) = .ok b) :
    m.blockAlignment i = .ok (max a b) := by
  have hmax : max c.count 1 = c.count := by omega
  unfold blockAlignment
  simp only [hrow, bind, Except.bind, kind, Row.firstElements, start, hmax, spanFrom_of_lt small, Span.stop, pure,
    Except.pure, key, value]

/-- The block of elements of one shape is as long as they are, padded to their alignment. -/
theorem AlikeFrom.blockSize_eq {c : Row} {length : Nat} (h : m.AlikeFrom first c.count size align)
    (hrow : m.row i = .ok c) (kind : c.kind = .array) (start : c.start = some first)
    (members : m.members i = .ok ⟨first, c.count⟩) (hsize : m.blockSize i = .ok length) :
    length = arrayLength c.count size align := by
  obtain ⟨span, stop, greatest, hspan, hextent, hgreatest, hpadded⟩ := blockSize_eq_ok ⟨c, hrow, .inr (.inl kind)⟩ hsize
  obtain rfl := Except.ok.inj (members.symm.trans hspan)
  obtain ⟨starts, hlength, hplaced⟩ := rowsPlaced_of_extent hextent
  obtain ⟨-, rfl, -⟩ := (h.rowsPlaced_iff hlength).mp hplaced
  obtain ⟨rfl, -⟩ := alignUp_eq_ok_iff.mp hpadded
  unfold arrayLength
  by_cases hempty : c.count = 0
  · rw [hempty, seriesEnd_zero, roundUp_zero, roundUp_zero]
  · have hfirst := h.alignment 0 (Nat.pos_of_ne_zero hempty)
    rw [blockAlignment_of_array hrow kind start] at hgreatest
    rw [Except.ok.inj (hgreatest.symm.trans hfirst)]

/-- The block of keys and values of one shape each is as long as they are, padded to the greater alignment. -/
theorem AlikeFrom.blockSize_append_eq {c : Row} {size' align' length : Nat}
    (keys : m.AlikeFrom first c.count size align) (values : m.AlikeFrom (first + c.count) c.count size' align')
    (hrow : m.row i = .ok c) (kind : c.kind = .dictionary) (start : c.start = some first)
    (small : first + c.count < indexLimit) (members : m.members i = .ok ⟨first, 2 * c.count⟩)
    (hsize : m.blockSize i = .ok length) :
    length = dictionaryLength c.count size align size' align' := by
  obtain ⟨span, stop, greatest, hspan, hextent, hgreatest, hpadded⟩ := blockSize_eq_ok ⟨c, hrow, .inr (.inr kind)⟩ hsize
  obtain rfl := Except.ok.inj (members.symm.trans hspan)
  obtain ⟨starts, hlength, hplaced⟩ := rowsPlaced_of_extent hextent
  obtain ⟨-, rfl, -⟩ := (keys.rowsPlaced_append_iff values hlength).mp hplaced
  obtain ⟨rfl, -⟩ := alignUp_eq_ok_iff.mp hpadded
  unfold dictionaryLength
  by_cases hempty : c.count = 0
  · rw [hempty, seriesEnd_zero, seriesEnd_zero, roundUp_zero, roundUp_zero]
  · have hkey := keys.alignment 0 (Nat.pos_of_ne_zero hempty)
    have hvalue := values.alignment 0 (Nat.pos_of_ne_zero hempty)
    rw [blockAlignment_of_dictionary hrow kind start hempty small hkey hvalue] at hgreatest
    rw [Except.ok.inj hgreatest]

/-- The block of an array holds a whole number of strides. -/
theorem arrayLength_eq (power : isPowerOfTwo align = true) (n size : Nat) :
    arrayLength n size align = n * roundUp size align := by
  rw [arrayLength, roundUp_seriesEnd power, roundUp_zero, Nat.zero_add]

/-- The values of a dictionary take a whole number of strides of the block. -/
theorem le_dictionaryLength {align' : Nat} (power : isPowerOfTwo align = true) (power' : isPowerOfTwo align' = true)
    (n size size' : Nat) : roundUp (seriesEnd 0 n size align) align' + n * roundUp size' align' ≤
      dictionaryLength n size align size' align' := by
  have hpower := isPowerOfTwo_max power power'
  obtain ⟨hdvd, hle, -⟩ := roundUp_spec (seriesEnd (seriesEnd 0 n size align) n size' align') hpower
  have hvalues := dvd_of_isPowerOfTwo power' hpower (Nat.le_max_right align align')
  rw [← roundUp_seriesEnd power']
  exact roundUp_le power' (Nat.dvd_trans hvalues hdvd) hle

end Model

end ObjectPack
