import ObjectPack.Bytes

/-!
# Byte order

Numbers travel as a fixed count of bytes in one of two orders.  Both orders are built on one
little-endian expansion: the big-endian form is its reverse.  The two round trips, `decode_encode`
(up to the width) and `encode_decode`, hold for either order because reversing twice changes
nothing.
-/

namespace ObjectPack

/-- The order in which the bytes of a number are stored. -/
inductive Endian where
  | little
  | big
  deriving DecidableEq, Repr, Inhabited

namespace Endian

/-- The byte that records this order in a container. -/
def marker : Endian → UInt8
  | .little => 0
  | .big => 1

/-- The order that a marker byte stands for. -/
def ofMarker? (b : UInt8) : Option Endian :=
  if b = 0 then some .little else if b = 1 then some .big else none

theorem ofMarker?_marker (e : Endian) : ofMarker? e.marker = some e := by
  cases e <;> decide

/-- The `width` base-256 digits of `n`, least significant first; higher digits are dropped. -/
def digits : Nat → Nat → Bytes
  | 0, _ => []
  | width + 1, n => UInt8.ofNat n :: digits width (n / 256)

/-- The number with the given base-256 digits, least significant first. -/
def ofDigits : Bytes → Nat
  | [] => 0
  | b :: rest => b.toNat + 256 * ofDigits rest

@[simp] theorem length_digits (width n : Nat) : (digits width n).length = width := by
  induction width generalizing n with
  | zero => rfl
  | succ width ih => rw [digits, List.length_cons, ih]

theorem ofDigits_digits (width n : Nat) : ofDigits (digits width n) = n % Nat.pow 256 width := by
  rw [Nat.pow_eq]
  induction width generalizing n with
  | zero => rw [digits, ofDigits, Nat.pow_zero, Nat.mod_one]
  | succ width ih =>
    rw [digits, ofDigits, ih, Nat.pow_succ', Nat.mod_mul]
    rfl

theorem ofDigits_lt (b : Bytes) : ofDigits b < Nat.pow 256 b.length := by
  rw [Nat.pow_eq]
  induction b with
  | nil => exact Nat.one_pos
  | cons x rest ih =>
    rw [ofDigits, List.length_cons, Nat.pow_succ]
    have hx : x.toNat < 256 := x.toNat_lt
    omega

theorem digits_ofDigits (b : Bytes) : digits b.length (ofDigits b) = b := by
  induction b with
  | nil => rfl
  | cons x rest ih =>
    have hx : x.toNat < 256 := x.toNat_lt
    have hdiv : (x.toNat + 256 * ofDigits rest) / 256 = ofDigits rest := by omega
    have hlow : UInt8.ofNat (x.toNat + 256 * ofDigits rest) = x := by
      apply UInt8.toNat_inj.mp
      rw [UInt8.toNat_ofNat']
      omega
    rw [List.length_cons, ofDigits, digits, hdiv, ih, hlow]

/-- `n` as `width` bytes in this order; higher digits are dropped. -/
def encode (e : Endian) (width n : Nat) : Bytes :=
  match e with
  | .little => digits width n
  | .big => (digits width n).reverse

/-- The number that a byte string stands for in this order. -/
def decode (e : Endian) (b : Bytes) : Nat :=
  match e with
  | .little => ofDigits b
  | .big => ofDigits b.reverse

@[simp] theorem length_encode (e : Endian) (width n : Nat) : (e.encode width n).length = width := by
  cases e <;> simp [encode]

theorem decode_encode (e : Endian) (width n : Nat) :
    e.decode (e.encode width n) = n % Nat.pow 256 width := by
  cases e <;> simp [encode, decode, ofDigits_digits]

theorem decode_lt (e : Endian) (b : Bytes) : e.decode b < Nat.pow 256 b.length := by
  cases e with
  | little => exact ofDigits_lt b
  | big => simpa [decode] using ofDigits_lt b.reverse

theorem encode_decode (e : Endian) (b : Bytes) : e.encode b.length (e.decode b) = b := by
  cases e with
  | little => exact digits_ofDigits b
  | big =>
    have h := digits_ofDigits b.reverse
    rw [List.length_reverse] at h
    simp [encode, decode, h]

end Endian

end ObjectPack
