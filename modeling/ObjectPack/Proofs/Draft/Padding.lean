import Mathlib.Order.Bounds.Defs
import ObjectPack.Proofs.Draft.Filling

/-!
# Padding at the end of the word

Rounding up works on words of 32 bits: it adds the alignment, takes one off, and clears low bits
(`maskUp`).  A power of two divides the number of all words, so the least multiple that is not below a
value fits in a word iff the last of the `align` numbers from the value on does
(`roundUp_lt_wordLimit_iff`).  The sum that is made first is one greater than that number.  So it also
leaves the word for a value that is itself the last multiple of its alignment: nothing would have to be
added to this value, and still it cannot be rounded up (`alignUp_lastMultiple`).  Everywhere else rounding
up is exact (`alignUp_exact`).

An alignment that is no power of two can lead to a number that is no multiple of it, but never to one
below the value.  So the padding of an open block is always as long as the rounded position is away from
the cursor (`Draft.align_eq_ok`), and to work out its length is never what overflows
(`Draft.align_overflow_iff`).
-/

namespace ObjectPack

open Outcome

/-! ### Words -/

/-- The bits outside of a mask come to what is left without the bits in it. -/
theorem toNat_and_not (x mask : UInt32) :
    (x &&& ~~~mask).toNat = x.toNat - (x.toNat &&& mask.toNat) := by
  have hdisjoint : (x.toBitVec &&& ~~~mask.toBitVec) &&& (x.toBitVec &&& mask.toBitVec) = 0 := by
    rw [BitVec.and_comm x.toBitVec mask.toBitVec, ← BitVec.and_assoc, BitVec.and_assoc x.toBitVec,
      BitVec.not_and_self]
    exact (congrArg (· &&& x.toBitVec) BitVec.and_zero).trans BitVec.zero_and
  have hparts : (x &&& ~~~mask).toNat + (x &&& mask).toNat = x.toNat :=
    calc (x &&& ~~~mask).toNat + (x &&& mask).toNat
      _ = ((x.toBitVec &&& ~~~mask.toBitVec) + (x.toBitVec &&& mask.toBitVec)).toNat :=
        (BitVec.toNat_add_of_and_eq_zero hdisjoint).symm
      _ = (x.toBitVec &&& (~~~mask.toBitVec ||| mask.toBitVec)).toNat := by
        rw [BitVec.add_eq_or_of_and_eq_zero _ _ hdisjoint, BitVec.and_or_distrib_left]
      _ = x.toNat := by
        rw [BitVec.not_or_self, BitVec.and_allOnes, UInt32.toNat_toBitVec]
  rw [← UInt32.toNat_and]
  omega

/-- A value rounded up the way words are: the sum may wrap around, and the low bits are masked out. -/
def maskUp (value align : UInt32) : UInt32 := (value + align - 1) &&& ~~~(align - 1)

/-- Where the sum stays in the word, masking words rounds up. -/
theorem toNat_maskUp {value align : UInt32} (many : 1 < align.toNat)
    (fits : value.toNat + align.toNat < wordLimit) :
    (maskUp value align).toNat = roundUp value.toNat align.toNat := by
  have hsum : (value + align).toNat = value.toNat + align.toNat := by
    rw [UInt32.toNat_add]
    exact Nat.mod_eq_of_lt fits
  have hpred : ∀ n : UInt32, 1 < n.toNat → (n - 1).toNat = n.toNat - 1 := fun n hn =>
    UInt32.toNat_sub_of_le n 1 (UInt32.le_iff_toNat_le.mpr (Nat.le_of_lt hn))
  rw [maskUp, toNat_and_not, hpred _ (by omega), hpred align many, hsum, roundUp, if_neg (by omega)]

/-! ### The least multiple -/

/-- The multiples of an alignment that are not below a value. -/
def multiplesFrom (value align : Nat) : Set Nat := {n | align ∣ n ∧ value ≤ n}

theorem isLeast_roundUp (value : Nat) {align : Nat} (power : isPowerOfTwo align = true) :
    IsLeast (multiplesFrom value align) (roundUp value align) := by
  obtain ⟨hdvd, hle, -⟩ := roundUp_spec value power
  exact ⟨⟨hdvd, hle⟩, fun n hn => roundUp_le power hn.1 hn.2⟩

theorem dvd_wordLimit {align : Nat} (power : isPowerOfTwo align = true) (word : align < wordLimit) :
    align ∣ wordLimit :=
  dvd_of_isPowerOfTwo power (by decide) (Nat.le_of_lt word)

/-- The least multiple fits in a word iff all numbers do among which it is. -/
theorem roundUp_lt_wordLimit_iff (value : Nat) {align : Nat} (power : isPowerOfTwo align = true)
    (word : align < wordLimit) : roundUp value align < wordLimit ↔ value + align ≤ wordLimit := by
  obtain ⟨hdvd, hle, hlt⟩ := roundUp_spec value power
  constructor
  · intro hfits
    -- The end of the word is a multiple as well, so a whole alignment lies between them.
    have hnext : align ≤ wordLimit - roundUp value align :=
      Nat.le_of_dvd (Nat.sub_pos_of_lt hfits) (Nat.dvd_sub (dvd_wordLimit power word) hdvd)
    omega
  · intro hsum
    omega

/-- Whether a value is the last multiple of an alignment in a word: the alignment leads from it to the
end of the word. -/
def IsLastMultiple (value align : Nat) : Prop := 1 < align ∧ value + align = wordLimit

/-- The sum that is made first fits in a word iff the least multiple does and the value is not the last one. -/
theorem sum_fits_iff {value align : Nat} (power : isPowerOfTwo align = true) (word : align < wordLimit)
    (small : value < wordLimit) : align ≤ 1 ∨ value + align < wordLimit ↔
      roundUp value align < wordLimit ∧ ¬ IsLastMultiple value align := by
  have hfits := roundUp_lt_wordLimit_iff value power word
  unfold IsLastMultiple
  omega

theorem alignUp_eq_error_iff {value align : Nat} {fault : Fault} : alignUp value align = .error fault ↔
    fault = .overflow ∧ 1 < align ∧ wordLimit ≤ value + align := by
  unfold alignUp
  split
  · rename_i hone
    simp [Nat.not_lt.mpr hone]
  · rename_i hmany
    split
    · rename_i hfits
      simp [Nat.not_le.mpr hfits]
    · rename_i hoverflow
      simp [Nat.not_le.mp hmany, Nat.not_lt.mp hoverflow, eq_comm]

theorem alignUp_roundUp_iff {value align : Nat} (power : isPowerOfTwo align = true) (word : align < wordLimit)
    (small : value < wordLimit) : alignUp value align = .ok (roundUp value align) ↔
      roundUp value align < wordLimit ∧ ¬ IsLastMultiple value align := by
  rw [alignUp_eq_ok_iff, eq_self_iff_true, true_and, sum_fits_iff power word small]

/-- Rounding up to a power of two overflows where the least multiple does not fit in a word, and for the last
multiple that does. -/
theorem alignUp_overflow_iff {value align : Nat} (power : isPowerOfTwo align = true) (word : align < wordLimit)
    (small : value < wordLimit) : alignUp value align = .error .overflow ↔
      wordLimit ≤ roundUp value align ∨ IsLastMultiple value align :=
  calc alignUp value align = .error .overflow
    _ ↔ 1 < align ∧ wordLimit ≤ value + align := by
      rw [alignUp_eq_error_iff, eq_self_iff_true, true_and]
    _ ↔ ¬ (align ≤ 1 ∨ value + align < wordLimit) := by
      rw [not_or, Nat.not_le, Nat.not_lt]
    _ ↔ wordLimit ≤ roundUp value align ∨ IsLastMultiple value align := by
      rw [sum_fits_iff power word small, not_and_or, Nat.not_lt, not_not]

/-- No power of two above one can round up its own last multiple, which is the least multiple already. -/
theorem alignUp_lastMultiple {align : Nat} (power : isPowerOfTwo align = true) (word : align < wordLimit)
    (many : 1 < align) : IsLeast (multiplesFrom (wordLimit - align) align) (wordLimit - align) ∧
      alignUp (wordLimit - align) align = .error .overflow := by
  have hdvd : align ∣ wordLimit - align := Nat.dvd_sub (dvd_wordLimit power word) (Nat.dvd_refl align)
  refine ⟨⟨⟨hdvd, Nat.le_refl _⟩, fun n hn => hn.2⟩, alignUp_eq_error_iff.mpr ⟨rfl, many, ?_⟩⟩
  exact Nat.le_of_eq (Nat.sub_add_cancel (Nat.le_of_lt word)).symm

/-- Rounding up leads less than an alignment further, and not out of the word. -/
theorem alignUp_bounds {value align padded : Nat} (small : value < wordLimit)
    (h : alignUp value align = .ok padded) :
    value ≤ padded ∧ padded < value + max 1 align ∧ padded < wordLimit := by
  have hle := le_of_alignUp h
  obtain ⟨rfl, hfits⟩ := alignUp_eq_ok_iff.mp h
  have hlast : roundUp value align < value + max 1 align := by
    unfold roundUp
    split
    · omega
    · have hlow := Nat.sub_le (value + align - 1) ((value + align - 1) &&& (align - 1))
      dsimp only
      omega
  exact ⟨hle, hlast, by omega⟩

/-! ### Padding -/

namespace Draft

variable {d d' : Draft} {index alignment : Nat} {block : Block} {body : Body}

/-- Padding puts as many zero bytes behind the content as lead from the cursor to the rounded position, where
there is room for them. -/
theorem align_eq_ok (active : d.active? = some (index, block, body)) : d.align alignment = .ok d' ↔
    ∃ pad, alignUp body.size alignment = .ok (body.size + pad) ∧
      (0 < pad → ∀ limit ∈ block.limit, body.size + pad ≤ limit) ∧
      d' = d.grown index body (Bytes.zeros pad) := by
  have hnothing : d.grown index body (Bytes.zeros 0) = d := became_nil active
  unfold align
  simp only [OpenAt.position_eq ⟨block, active, rfl⟩, bind_eq_ok, Except.ok.injEq, exists_eq_left']
  constructor
  · rintro ⟨padded, hpadded, hwritten⟩
    have hle := le_of_alignUp hpadded
    refine ⟨padded - body.size, by rwa [Nat.add_sub_cancel' hle], ?_⟩
    split at hwritten
    · obtain ⟨i, b, c, hactive, hroom, hgrown⟩ := append_eq_ok.mp hwritten
      cases active.symm.trans hactive
      rw [Bytes.length_zeros] at hroom
      exact ⟨fun _ => hroom, hgrown⟩
    · obtain rfl : padded = body.size := by omega
      obtain rfl := pure_eq_ok.mp hwritten
      rw [Nat.sub_self]
      exact ⟨fun hpos => absurd hpos (Nat.lt_irrefl 0), hnothing.symm⟩
  · rintro ⟨pad, hpadded, hroom, rfl⟩
    refine ⟨body.size + pad, hpadded, ?_⟩
    rw [Nat.add_sub_cancel_left]
    split
    · refine append_eq_ok.mpr ⟨index, block, body, active, ?_, rfl⟩
      rw [Bytes.length_zeros]
      exact hroom (by omega)
    · obtain rfl : pad = 0 := by omega
      rw [hnothing]
      rfl

/-- Appending fails in one way only: the bytes run over the limit of the block. -/
theorem overrun_of_append {b : Bytes} {fault : Fault} (active : d.active? = some (index, block, body))
    (h : d.append b = .error fault) :
    ∃ limit, fault = .overrun b.length block.reference (body.size + b.length) limit := by
  unfold append at h
  rw [active_eq_ok.mpr active] at h
  dsimp only [bind, Except.bind] at h
  split at h
  · rename_i limit hlimit
    split at h
    · exact ⟨limit, (Except.error.inj h).symm⟩
    · cases h
  · cases h

/-- Padding overflows where rounding up the cursor does: the cursor can always be taken off the rounded
position. -/
theorem align_overflow_iff (active : d.active? = some (index, block, body)) :
    d.align alignment = .error .overflow ↔ alignUp body.size alignment = .error .overflow := by
  unfold align
  rw [OpenAt.position_eq ⟨block, active, rfl⟩]
  dsimp only [bind, Except.bind]
  cases hrounded : alignUp body.size alignment with
  | error fault =>
    dsimp only
    rw [Except.error.injEq, Except.error.injEq]
  | ok padded =>
    refine ⟨fun h => ?_, fun h => ?_⟩
    · dsimp only at h
      split at h
      · obtain ⟨limit, hoverrun⟩ := overrun_of_append active h
        cases hoverrun
      · cases h
    · cases h

end Draft

/-! ### Rounding up as a whole -/

/-- **Rounding up is exact but for the last multiple.**  A power of two gives the least multiple that is not
below the value, and overflows iff that multiple does not fit in a word or the value is the last one that does.
With any alignment the result is what masking words gives, and not below the value, so the padding of the open
block at that position is as long as their difference, and overflows only where rounding up does. -/
theorem alignUp_exact (value align : UInt32) :
    (isPowerOfTwo align.toNat = true → ∃ least, IsLeast (multiplesFrom value.toNat align.toNat) least ∧
      (alignUp value.toNat align.toNat = .ok least ↔
        least < wordLimit ∧ ¬ IsLastMultiple value.toNat align.toNat) ∧
      (alignUp value.toNat align.toNat = .error .overflow ↔
        wordLimit ≤ least ∨ IsLastMultiple value.toNat align.toNat)) ∧
    (∀ padded, alignUp value.toNat align.toNat = .ok padded →
      value.toNat ≤ padded ∧ padded < value.toNat + max 1 align.toNat ∧ padded < wordLimit ∧
      (1 < align.toNat → padded = (maskUp value align).toNat)) ∧
    ∀ (d : Draft) (index : Nat) (block : Block) (body : Body), d.active? = some (index, block, body) →
      body.size = value.toNat →
      (∀ d', d.align align.toNat = .ok d' ↔ ∃ pad, alignUp value.toNat align.toNat = .ok (value.toNat + pad) ∧
        (0 < pad → ∀ limit ∈ block.limit, value.toNat + pad ≤ limit) ∧
        d' = d.grown index body (Bytes.zeros pad)) ∧
      (d.align align.toNat = .error .overflow ↔ alignUp value.toNat align.toNat = .error .overflow) := by
  have hsmall : value.toNat < wordLimit := value.toNat_lt
  have hword : align.toNat < wordLimit := align.toNat_lt
  refine ⟨fun power => ?_, fun padded h => ?_, fun d index block body active cursor => ?_⟩
  · exact ⟨_, isLeast_roundUp value.toNat power, alignUp_roundUp_iff power hword hsmall,
      alignUp_overflow_iff power hword hsmall⟩
  · obtain ⟨hle, hlt, hfits⟩ := alignUp_bounds hsmall h
    refine ⟨hle, hlt, hfits, fun many => ?_⟩
    obtain ⟨rfl, hone | hsum⟩ := alignUp_eq_ok_iff.mp h
    · exact absurd many (Nat.not_lt.mpr hone)
    · exact (toNat_maskUp many hsum).symm
  · rw [← cursor]
    exact ⟨fun d' => Draft.align_eq_ok active, Draft.align_overflow_iff active⟩

/-- A block that holds three bytes and is still open. -/
def threeBytes : List Operation :=
  [.registerUnit .empty, .openUnit 0, .newBlock 4 none, .openBlock ⟨1⟩, .write (.bytes [1, 2, 3])]

/-- A value between the last two multiples of sixteen, and a cursor that six leads to no multiple of it. -/
theorem alignUp_exact_threeBytes :
    (isPowerOfTwo 16 = true ∧ IsLeast (multiplesFrom 0xffffffe1 16) 0xfffffff0 ∧
      alignUp 0xffffffe1 16 = .ok 0xfffffff0) ∧
    (alignUp 3 6 = .ok 8 ∧ 3 ≤ 8 ∧ (maskUp 3 6).toNat = 8) ∧
    ∃ d index block body, (Draft.blank .win64 .chained .full).after? threeBytes = some d ∧
      d.active? = some (index, block, body) ∧ body.size = 3 ∧ block.limit = none ∧
      d.align 6 = .ok (d.grown index body (Bytes.zeros 5)) := by
  refine ⟨⟨by decide, ?_⟩, ⟨by decide, ?_⟩, ?_⟩
  · obtain ⟨least, hleast, hok, -⟩ := (alignUp_exact 0xffffffe1 16).1 (by decide)
    have hbelow : least ≤ 0xfffffff0 := hleast.2 ⟨by decide, by decide⟩
    have hdvd : 16 ∣ least := hleast.1.1
    have habove : 0xffffffe1 ≤ least := hleast.1.2
    obtain rfl : least = 0xfffffff0 := by omega
    exact ⟨hleast, hok.mpr ⟨by decide, fun h => absurd h.2 (by decide)⟩⟩
  · obtain ⟨hle, -, -, hmask⟩ := (alignUp_exact 3 6).2.1 8 (by decide)
    exact ⟨hle, (hmask (by decide)).symm⟩
  · have hcheck : ((Draft.blank .win64 .chained .full).after? threeBytes).any (fun d =>
        d.active?.any fun x => x.2.2.size = 3 && x.2.1.limit = none) = true := by decide +kernel
    simp only [Option.any_eq_true, Bool.and_eq_true, decide_eq_true_eq, Prod.exists] at hcheck
    obtain ⟨d, hd, index, block, body, hactive, hsize, hlimit⟩ := hcheck
    refine ⟨d, index, block, body, hd, hactive, hsize, hlimit, ?_⟩
    refine (((alignUp_exact 3 6).2.2 d index block body hactive hsize).1 _).mpr
      ⟨5, by decide, fun _ limit h => ?_, rfl⟩
    rw [hlimit] at h
    cases h

/-- The last multiple of four in a word is the least one that is not below itself, and cannot be rounded up. -/
theorem lastMultiple_unrounded : isPowerOfTwo 4 = true ∧ IsLeast (multiplesFrom 0xfffffffc 4) 0xfffffffc ∧
    0xfffffffc < wordLimit ∧ alignUp 0xfffffffc 4 = .error .overflow := by
  have power : isPowerOfTwo 4 = true := by decide
  obtain ⟨hleast, hoverflow⟩ := alignUp_lastMultiple power (by decide) (by decide)
  exact ⟨power, hleast, by decide, hoverflow⟩

end ObjectPack
