import ObjectPack.Fault

/-!
# Alignment

Rounding up to a multiple of an alignment, in 32-bit arithmetic.  Of the `align` numbers from the
value on, exactly one is a multiple of `align`; for a power of two, clearing the low bits of the
last of them leads back to it.  For other alignments the bits that `align - 1` has are cleared.  In
either case the result is not below the value (`le_of_alignUp`).
-/

namespace ObjectPack

/-- `value` rounded up to a multiple of `align`; alignments 0 and 1 stand for none. -/
def alignUp (value align : Nat) : Except Fault Nat :=
  if align ≤ 1 then .ok value
  else if value + align < wordLimit then
    -- Clearing low bits takes off at most `align - 1`, so the result is not below `value`.
    let last := value + align - 1
    .ok (last - (last &&& (align - 1)))
  else .error .overflow

/-- Rounding up never goes down. -/
theorem le_of_alignUp {value align padded : Nat} (h : alignUp value align = .ok padded) :
    value ≤ padded := by
  unfold alignUp at h
  split at h
  · cases h
    exact Nat.le_refl _
  · split at h
    · cases h
      have hlow : (value + align - 1) &&& (align - 1) ≤ align - 1 := Nat.and_le_right
      omega
    · cases h

/-- Whether a number is a power of two. -/
def isPowerOfTwo (n : Nat) : Bool := n ≠ 0 && n &&& (n - 1) = 0

end ObjectPack
