import Mathlib.Algebra.Group.Nat.Defs
import ObjectPack.Align

/-!
# Alignment to powers of two

Rounding up to a power of two gives the least multiple that is not below the value: the low bits that
are cleared are the remainder.
-/

namespace ObjectPack

theorem isPowerOfTwo_iff {n : Nat} : isPowerOfTwo n = true ↔ ∃ k, n = 2 ^ k := by
  rw [isPowerOfTwo, Bool.and_eq_true, decide_eq_true_iff, decide_eq_true_iff]
  exact Nat.ne_zero_and_sub_one_eq_zero_iff_isPowerOfTwo

theorem pos_of_isPowerOfTwo {n : Nat} (h : isPowerOfTwo n = true) : 0 < n := by
  obtain ⟨k, rfl⟩ := isPowerOfTwo_iff.mp h
  exact Nat.two_pow_pos k

/-- Clearing the low bits of a number takes off its remainder. -/
theorem and_pred_of_isPowerOfTwo {align : Nat} (h : isPowerOfTwo align = true) (n : Nat) :
    n &&& (align - 1) = n % align := by
  obtain ⟨k, rfl⟩ := isPowerOfTwo_iff.mp h
  exact Nat.and_two_pow_sub_one_eq_mod n k

/-- Of two powers of two the smaller divides the greater. -/
theorem dvd_of_isPowerOfTwo {m n : Nat} (hm : isPowerOfTwo m = true) (hn : isPowerOfTwo n = true)
    (h : m ≤ n) : m ∣ n := by
  obtain ⟨j, rfl⟩ := isPowerOfTwo_iff.mp hm
  obtain ⟨k, rfl⟩ := isPowerOfTwo_iff.mp hn
  exact Nat.pow_dvd_pow 2 ((Nat.pow_le_pow_iff_right (Nat.le_refl 2)).mp h)

theorem isPowerOfTwo_max {m n : Nat} (hm : isPowerOfTwo m = true) (hn : isPowerOfTwo n = true) :
    isPowerOfTwo (max m n) = true := by
  rcases Nat.le_total m n with hle | hle
  · rwa [Nat.max_eq_right hle]
  · rwa [Nat.max_eq_left hle]

/-! ### Rounding without a limit -/

/-- `value` rounded up to a multiple of `align`, were there no word to stay in. -/
def roundUp (value align : Nat) : Nat :=
  if align ≤ 1 then value
  else
    let last := value + align - 1
    last - (last &&& (align - 1))

theorem le_roundUp (value align : Nat) : value ≤ roundUp value align := by
  unfold roundUp
  split
  · exact Nat.le_refl _
  · have hlow : (value + align - 1) &&& (align - 1) ≤ align - 1 := Nat.and_le_right
    dsimp only
    omega

/-- Rounding up to a power of two gives the multiple among the numbers that follow. -/
theorem roundUp_spec (value : Nat) {align : Nat} (power : isPowerOfTwo align = true) :
    align ∣ roundUp value align ∧ value ≤ roundUp value align ∧ roundUp value align < value + align := by
  have hpos := pos_of_isPowerOfTwo power
  have hle := le_roundUp value align
  unfold roundUp at hle ⊢
  split
  · obtain rfl : align = 1 := by omega
    exact ⟨Nat.one_dvd _, Nat.le_refl _, Nat.lt_succ_self _⟩
  · rename_i hmany
    rw [if_neg hmany] at hle
    dsimp only at hle ⊢
    refine ⟨?_, hle, by omega⟩
    rw [and_pred_of_isPowerOfTwo power]
    exact Nat.dvd_sub_mod _

/-- Rounding up gives the least multiple. -/
theorem roundUp_le {value align n : Nat} (power : isPowerOfTwo align = true) (dvd : align ∣ n) (le : value ≤ n) :
    roundUp value align ≤ n := by
  obtain ⟨⟨a, ha⟩, -, hlt⟩ := roundUp_spec value power
  obtain ⟨b, rfl⟩ := dvd
  rw [ha] at hlt ⊢
  refine Nat.mul_le_mul_left align (Nat.le_of_lt_succ (Nat.lt_of_mul_lt_mul_left (a := align) ?_))
  rw [Nat.mul_succ]
  omega

/-- A multiple is rounded up to itself. -/
theorem roundUp_of_dvd {value align : Nat} (power : isPowerOfTwo align = true) (dvd : align ∣ value) :
    roundUp value align = value :=
  Nat.le_antisymm (roundUp_le power dvd (Nat.le_refl value)) (le_roundUp value align)

@[simp] theorem roundUp_zero (align : Nat) : roundUp 0 align = 0 := by
  unfold roundUp
  dsimp only
  rw [Nat.zero_add, Nat.and_self, Nat.sub_self, ite_self]

/-- What stands in front of a value does not matter to rounding it up if it is a multiple itself. -/
theorem roundUp_add {start align : Nat} (power : isPowerOfTwo align = true) (dvd : align ∣ start) (value : Nat) :
    roundUp (start + value) align = start + roundUp value align := by
  obtain ⟨hdvd, hle, -⟩ := roundUp_spec value power
  obtain ⟨hdvd', hle', -⟩ := roundUp_spec (start + value) power
  have hbelow := roundUp_le power (Nat.dvd_add dvd hdvd) (Nat.add_le_add_left hle start)
  have habove : roundUp value align ≤ roundUp (start + value) align - start :=
    roundUp_le power (Nat.dvd_sub hdvd' dvd) (by omega)
  omega

/-! ### Rounding in a word -/

/-- Rounding up has a result iff nothing has to be added or the sum stays in its word. -/
theorem alignUp_eq_ok_iff {value align padded : Nat} : alignUp value align = .ok padded ↔
    padded = roundUp value align ∧ (align ≤ 1 ∨ value + align < wordLimit) := by
  unfold alignUp roundUp
  split
  · rename_i hone
    simp [hone, eq_comm]
  · rename_i hmany
    split
    · rename_i hfits
      simp [hfits, eq_comm]
    · rename_i hoverflow
      simp [hmany, hoverflow]

theorem alignUp_spec {value align padded : Nat} (power : isPowerOfTwo align = true)
    (h : alignUp value align = .ok padded) :
    align ∣ padded ∧ value ≤ padded ∧ padded < value + align := by
  obtain ⟨rfl, -⟩ := alignUp_eq_ok_iff.mp h
  exact roundUp_spec value power

/-- A multiple is rounded up to itself. -/
theorem alignUp_again {value align start again : Nat} (power : isPowerOfTwo align = true)
    (h : alignUp value align = .ok start) (h' : alignUp start align = .ok again) : again = start := by
  obtain ⟨rfl, -⟩ := alignUp_eq_ok_iff.mp h'
  exact roundUp_of_dvd power (alignUp_spec power h).1

/-- Where the data that is produced has to end for all arithmetic on offsets to stay in its word. -/
def dataLimit : Nat := 0x80000000

/-- Powers of two that are words are at most half of what a word counts. -/
theorem le_dataLimit_of_isPowerOfTwo {align : Nat} (power : isPowerOfTwo align = true)
    (word : align < wordLimit) : align ≤ dataLimit := by
  obtain ⟨k, rfl⟩ := isPowerOfTwo_iff.mp power
  have hk : k < 32 := (Nat.pow_lt_pow_iff_right Nat.one_lt_two).mp word
  exact Nat.pow_le_pow_right Nat.two_pos (Nat.le_of_lt_succ hk)

/-- Offsets below the limit can be rounded up. -/
theorem alignUp_eq {value align : Nat} (power : isPowerOfTwo align = true) (word : align < wordLimit)
    (small : value < dataLimit) : alignUp value align = .ok (roundUp value align) := by
  have halign := le_dataLimit_of_isPowerOfTwo power word
  have hlimits : dataLimit + dataLimit = wordLimit := rfl
  exact alignUp_eq_ok_iff.mpr ⟨rfl, Or.inr (by omega)⟩

/-- A multiple below the limit is rounded up to itself. -/
theorem alignUp_start {value align start : Nat} (power : isPowerOfTwo align = true)
    (word : align < wordLimit) (h : alignUp value align = .ok start) (small : start < dataLimit) :
    alignUp start align = .ok start := by
  have hrounded := alignUp_eq power word small
  rw [hrounded, alignUp_again power h hrounded]

end ObjectPack
