import ObjectPack.Proofs.Draft.Rename

/-!
# Drafts from another supply

A draft whose supply began `t` references later is the same draft with other names (`Draft.Shifted`): every
reference but the empty one is numbered `t` higher.
-/

namespace ObjectPack

/-! ### References -/

/-- The name of a reference that is taken `t` references later. -/
def Reference.shift (t : Nat) (r : Reference) : Reference := if r.isEmpty then r else ⟨r.id + t⟩

theorem Reference.shift_mk {n : Nat} (t : Nat) (h : 0 < n) : Reference.shift t ⟨n⟩ = ⟨n + t⟩ := by
  unfold shift isEmpty
  rw [decide_eq_false (Nat.ne_of_gt h)]
  rfl

theorem Reference.shift_injective (t : Nat) : Function.Injective (Reference.shift t) := by
  rintro ⟨m⟩ ⟨n⟩ h
  rcases Nat.eq_zero_or_pos m with rfl | hm <;> rcases Nat.eq_zero_or_pos n with rfl | hn
  · rfl
  · rw [shift_mk t hn] at h
    have hid : 0 = n + t := congrArg Reference.id h
    omega
  · rw [shift_mk t hm] at h
    have hid : m + t = 0 := congrArg Reference.id h
    omega
  · rw [shift_mk t hm, shift_mk t hn] at h
    have hid : m + t = n + t := congrArg Reference.id h
    rw [Nat.add_right_cancel hid]

/-- Shifting twice is shifting further. -/
theorem Reference.shift_comp_shift (a t : Nat) : shift t ∘ shift a = shift (a + t) := by
  funext ⟨n⟩
  rcases Nat.eq_zero_or_pos n with rfl | hn
  · rfl
  · rw [Function.comp_apply, shift_mk a hn, shift_mk t (Nat.lt_add_right a hn), shift_mk _ hn,
      Nat.add_assoc]

/-! ### Drafts -/

namespace Draft

variable {t : Nat} {d d' : Draft}

/-- Whether a draft is another one from a supply that began `t` references later. -/
abbrev Shifted (t : Nat) (d d' : Draft) : Prop := Renamed (.shift t) t d d'

theorem blank_shifted {s : Supply} (positive : 0 < s.next) (platform : Platform)
    (encoding : PointerEncoding) :
    Shifted t (blank platform encoding s) (blank platform encoding ⟨s.next + t⟩) where
  eq := rfl
  length := rfl
  bodies _ hblock := absurd hblock List.not_mem_nil
  injective := Reference.shift_injective t
  fresh _ hn := Reference.shift_mk t (Nat.lt_of_lt_of_le positive hn)
  cursor _ _ _ hactive := by cases hactive

/-- What has been taken from the supply has been taken from the shifted one. -/
theorem Shifted.shift_lt (h : Shifted t d d') {r : Reference} (known : r.id < d.supply.next) :
    (r.shift t).id < d'.supply.next := by
  rw [h.supply]
  unfold Reference.shift
  split
  · exact Nat.lt_of_lt_of_le known (Nat.le_add_right _ _)
  · exact Nat.add_lt_add_right known t

/-- A known reference stays known. -/
theorem Shifted.knownIn (h : Shifted t d d') {op : Operation} (known : op.KnownIn d) :
    (op.rename (.shift t)).KnownIn d' := by
  intro r hr
  rw [Operation.reference?_rename, Option.mem_map] at hr
  obtain ⟨r, hr, rfl⟩ := hr
  exact shift_lt h (known r hr)

end Draft

end ObjectPack
