import Mathlib.Data.String.Basic
import ObjectPack.Bytes

/-!
# The order of texts

Texts are compared by the code points of their characters.  That is the order of their bytes in UTF-8
(`Bytes.ofText_le_iff`): the encoding of a character with a smaller code point comes first
(`Bytes.utf8EncodeChar_lt`), whatever follows it.
-/

namespace ObjectPack.Bytes

/-- A character with a smaller code point has an encoding that comes first, whatever follows. -/
theorem utf8EncodeChar_lt {c d : Char} (h : c < d) (x y : Bytes) :
    String.utf8EncodeChar c ++ x < String.utf8EncodeChar d ++ y := by
  have hlt : c.val.toNat < d.val.toNat := h
  have hbound : d.val.toNat < 0x110000 := by
    rcases d.valid with hv | ⟨-, hv⟩
    · exact Nat.lt_trans hv (by decide)
    · exact hv
  have hsecond : ∀ n, n / 4096 = n / 64 / 64 := by omega
  have hthird : ∀ n, n / 262144 = n / 64 / 64 / 64 := by omega
  unfold String.utf8EncodeChar
  generalize c.val.toNat = u at hlt
  generalize d.val.toNat = v at hlt hbound
  -- Encodings of different lengths differ in their first bytes, others at the first digit that differs.
  dsimp only
  split_ifs <;>
    simp only [List.cons_append, List.nil_append, List.cons_lt_cons_iff, UInt8.lt_iff_toNat_lt,
      ← UInt8.toNat_inj, UInt8.toNat_ofNat', hsecond, hthird] <;> omega

theorem ofText_eq (s : String) : ofText s = s.toList.flatMap String.utf8EncodeChar := by
  rw [ofText, ← String.utf8Encode_toList, List.utf8Encode, List.data_toByteArray]

theorem flatMap_utf8EncodeChar_lt {l l' : List Char} (h : l < l') :
    l.flatMap String.utf8EncodeChar < l'.flatMap String.utf8EncodeChar := by
  induction h with
  | @nil c rest =>
    rw [List.flatMap_nil, List.flatMap_cons]
    obtain ⟨b, bytes, hbytes⟩ := List.exists_cons_of_ne_nil (String.utf8EncodeChar_ne_nil (c := c))
    rw [hbytes]
    exact .nil
  | rel h => exact utf8EncodeChar_lt h _ _
  | @cons c rest rest' _ ih =>
    rw [List.flatMap_cons, List.flatMap_cons]
    exact List.append_left_lt ih

/-- One text comes before another one iff its bytes do. -/
theorem ofText_lt_iff {s t : String} : ofText s < ofText t ↔ s < t := by
  have hlt : ∀ {s t : String}, s < t → ofText s < ofText t := by
    intro s t h
    rw [ofText_eq, ofText_eq]
    exact flatMap_utf8EncodeChar_lt (String.lt_iff_toList_lt.mp h)
  refine ⟨fun h => ?_, hlt⟩
  rcases lt_trichotomy s t with hst | rfl | hts
  · exact hst
  · exact absurd h (List.lt_irrefl _)
  · exact absurd (hlt hts) (List.lt_asymm h)

theorem ofText_le_iff {s t : String} : ofText s ≤ ofText t ↔ s ≤ t := by
  rw [← List.not_lt, ofText_lt_iff, not_lt]

end ObjectPack.Bytes
