import ObjectPack.Proofs.Compile
import ObjectPack.Proofs.Model.Compact
import ObjectPack.Proofs.Model.Solved

/-!
# Compact objects of a compiled data unit

Solving the layout sorts the fields of every object, so where custom structs can stand one behind the other without
gaps, every object of a solved model is compact (`Options.solvedModel_compact`): its fields follow each other without
padding, its block is as aligned as the first of them, and no other order of the fields makes the block shorter.  The
layout is computed in words of 32 bits, and takes the sum of a size and an alignment before it rounds; so the block of
an object also has to fit with that sum, and a few bytes at the end of the word cannot be used
(`Options.exists_unlaid`).
-/

namespace ObjectPack

open Outcome

namespace Options

variable {o : Options} {classifier : Classifier} {unit : DataUnit} {root i : Nat} {m : Model} {owner : Row}
  {span : Span}

/-- **Objects are compact in a solved model**: the fields follow each other without padding, the block is as aligned
as the first field, and as long as the fields when they are rounded up, which is the least for any order of them, iff
the bytes of the fields stay in a word together with the alignment. -/
theorem solvedModel_compact (solved : o.solvedModel classifier unit = .ok (root, m)) (object : m.IsObject i owner)
    (members : m.members i = .ok span) (nonempty : span.length ≠ 0)
    (customs : ∀ j r c, owner.Owns j → m.row j = .ok r → r.value = .struct c → c.Stackable) :
    ∃ sizes alignment, sizes.length = span.length ∧
      (∀ k size, sizes[k]? = some size → m.byteSize (span.start + k) = .ok size) ∧
      m.alignment span.start = .ok alignment ∧ m.blockAlignment i = .ok alignment ∧ isPowerOfTwo alignment = true ∧
      (m.Compact i owner span sizes alignment ↔
        sizes.sum < wordLimit ∧ (alignment ≤ 1 ∨ sizes.sum + alignment < wordLimit)) := by
  obtain ⟨walked, passes, hwalk, hsolve⟩ := solvedModel_eq_ok.mp solved
  have hwhole := Walk.Rules.walk_whole (s := .full) hwalk
  have hordered := Walk.Rules.walk_ordered (s := .full) hwalk
  have hwhole' := solvedModel_whole solved
  obtain ⟨place, hplace⟩ := Model.solve_solved hwhole hordered hsolve
  -- The fields have been sorted.
  obtain ⟨j, former, hformer, rfl⟩ := hplace.objects i owner object
  obtain rfl := Except.ok.inj ((hplace.row j former hformer.1).symm.trans object.1)
  have hsorted := hplace.fields_pairwise hwhole hordered hformer (Model.solve_passes_pos hsolve)
  have hdescending := hsorted.imp Row.Before.step_le
  have hmembers := (Model.members_eq object.1).symm.trans members
  have range := hwhole'.hasRange object hmembers nonempty
  have each : ∀ r ∈ m.fields (walked.foldedRow former), r.Stackable := by
    intro r hr
    obtain ⟨k, howns, hrow⟩ := Model.exists_of_mem_fields object.2 hr
    exact (hwhole'.fits k r hrow).stackable (customs k r · howns hrow)
  obtain ⟨first, rest, hcons⟩ := List.exists_cons_of_length_pos
    (show 0 < (m.fields (walked.foldedRow former)).length from range.length_fields ▸ Nat.pos_of_ne_zero nonempty)
  have hfirst := each first (hcons ▸ List.mem_cons_self)
  have hgreatest : Model.greatestStep (m.fields (walked.foldedRow former)) = first.step :=
    hcons ▸ (Model.greatestStep_cons (hcons ▸ hdescending)).1
  refine ⟨(m.fields (walked.foldedRow former)).map Row.width, _, ?_, ?_, ?_, range.blockAlignment each nonempty, ?_,
    range.compact_iff each nonempty hdescending⟩
  · rw [List.length_map, range.length_fields]
  · intro k size hk
    rw [List.getElem?_map, Option.map_eq_some_iff] at hk
    obtain ⟨r, hr, rfl⟩ := hk
    exact Model.byteSize_eq (range.row_field hr) (each r (List.mem_of_getElem? hr)).size
  · rw [hgreatest]
    exact Model.alignment_eq (range.row_field (k := 0) (by rw [hcons]; rfl)) hfirst.alignment
  · exact hgreatest ▸ hfirst.power

/-- A custom struct that is as long as two of its alignments. -/
def couple : CustomStruct := ⟨"Couple", 16, 8, [.zeros 16], [], []⟩

/-- An object with fields of many sizes, in an order that would need padding. -/
def mixed : DataUnit :=
  ⟨"mixed", ⟨"Root", [⟨"m_small", .scalar .u8, .scalar (.u8 1)⟩, ⟨"m_couple", .custom "Couple", .custom couple⟩,
    ⟨"m_flag", .bool, .bool true⟩, ⟨"m_short", .scalar .i16, .scalar (.i16 2)⟩,
    ⟨"m_wide", .scalar .u64, .scalar (.u64 3)⟩]⟩⟩

/-- The fields take 31 bytes, and the block 32. -/
theorem solvedModel_compact_mixed : ∃ root m owner, solvedModel {} .standard mixed = .ok (root, m) ∧
    m.IsObject 1 owner ∧ m.members 1 = .ok ⟨2, 5⟩ ∧
    (∀ j r c, owner.Owns j → m.row j = .ok r → r.value = .struct c → c.Stackable) ∧
    m.blockSize 1 = .ok 32 ∧ m.Compact 1 owner ⟨2, 5⟩ [8, 16, 4, 2, 1] 8 := by
  have hcheck : (solvedModel {} .standard mixed).toOption.any (fun x =>
      (x.2.row 1).toOption.any (fun owner => owner.kind = .object) && (x.2.members 1).toOption = some ⟨2, 5⟩ &&
      x.2.rows.toList.all (fun r =>
        r.value.struct?.all fun c => isPowerOfTwo c.alignment && c.size % c.alignment = 0) &&
      decide (∀ k : Fin 5, (x.2.byteSize (2 + k)).toOption = some [8, 16, 4, 2, 1][k]) &&
      (x.2.alignment 2).toOption = some 8 && (x.2.blockSize 1).toOption = some 32) = true := by
    decide +kernel
  simp only [Option.any_eq_true, Bool.and_eq_true, decide_eq_true_eq, toOption_eq_some, Prod.exists,
    List.all_eq_true] at hcheck
  obtain ⟨root, m, hsolved, ⟨⟨⟨⟨⟨owner, howner, hkind⟩, hmembers⟩, hstructs⟩, hsizes⟩, hfirst⟩, hsize⟩ := hcheck
  have hcustoms : ∀ j r c, owner.Owns j → m.row j = .ok r → r.value = .struct c → c.Stackable := by
    intro j r c _ hrow hvalue
    have hstruct := hstructs r (List.mem_of_getElem? (Model.row_eq_ok.mp hrow))
    rw [hvalue] at hstruct
    obtain ⟨hpower, hmod⟩ := Bool.and_eq_true_iff.mp hstruct
    exact ⟨hpower, Nat.dvd_of_mod_eq_zero (of_decide_eq_true hmod)⟩
  obtain ⟨sizes, alignment, hlength, hsizes', hfirst', -, -, hcompact⟩ :=
    solvedModel_compact hsolved ⟨howner, hkind⟩ hmembers (by decide) hcustoms
  obtain rfl := Except.ok.inj (hfirst'.symm.trans hfirst)
  obtain rfl : sizes = [8, 16, 4, 2, 1] := by
    refine List.ext_getElem hlength fun k hk hk' => ?_
    exact Except.ok.inj ((hsizes' k _ (List.getElem?_eq_getElem hk)).symm.trans (hsizes ⟨k, hk'⟩))
  exact ⟨root, m, owner, hsolved, ⟨howner, hkind⟩, hmembers, hcustoms, hsize, hcompact.mpr (by decide)⟩

/-- A custom struct that leaves no more than seven bytes of a word. -/
def vast : CustomStruct := ⟨"Vast", 0xfffffff8, 8, [], [], []⟩

/-- An object that consists of the custom struct. -/
def vastRoot : DataUnit := ⟨"vast", ⟨"Root", [⟨"m_vast", .custom "Vast", .custom vast⟩]⟩⟩

/-- The only field of the object is as long as its block has to be, which is a number of 32 bits, but the layout of the
object is a fault. -/
theorem exists_unlaid : ∃ root m, solvedModel {} .standard vastRoot = .ok (root, m) ∧ m.members 1 = .ok ⟨2, 1⟩ ∧
    m.byteSize 2 = .ok 0xfffffff8 ∧ m.alignment 2 = .ok 8 ∧ vast.Stackable ∧ roundUp 0xfffffff8 8 = 0xfffffff8 ∧
    0xfffffff8 < wordLimit ∧ m.blockSize 1 = .error .overflow ∧ m.memberOffsets 1 = .ok [0] := by
  have hcheck : (solvedModel {} .standard vastRoot).toOption.any (fun x =>
      (x.2.members 1).toOption = some ⟨2, 1⟩ && (x.2.byteSize 2).toOption = some 0xfffffff8 &&
      (x.2.alignment 2).toOption = some 8 && (x.2.memberOffsets 1).toOption = some [0] &&
      decide (x.2.blockSize 1 = .error .overflow)) = true := by
    decide +kernel
  simp only [Option.any_eq_true, Bool.and_eq_true, decide_eq_true_eq, toOption_eq_some, Prod.exists] at hcheck
  obtain ⟨root, m, hsolved, ⟨⟨⟨hmembers, hsize⟩, halignment⟩, hoffsets⟩, hfault⟩ := hcheck
  exact ⟨root, m, hsolved, hmembers, hsize, halignment, ⟨by decide, by decide⟩, by decide, by decide, hfault, hoffsets⟩

end Options

end ObjectPack
