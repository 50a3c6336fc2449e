import ObjectPack.Proofs.Compile
import ObjectPack.Proofs.Packing.Exact

/-!
# Compiled data units agree with their layout

The model of a data unit is walked and solved; every block that is packed from it agrees with the layout
of the row that it is for (`Options.packFrom_modelExact`).
-/

namespace ObjectPack.Options

open Outcome Packing

variable {o : Options} {classifier : Classifier} {registry : Registry} {unit : DataUnit}
  {root i : Nat} {m : Model} {platform : Platform} {encoding : PointerEncoding} {d : Draft}

/-- Every block that is packed for a row of a solved model holds the rows that the row owns, each where
the layout places it and as long as the layout says, with zeros between them and nothing behind them. -/
theorem packFrom_modelExact (solved : o.solvedModel classifier unit = .ok (root, m))
    (packed : packFrom m registry (.blank platform encoding m.supply) i = .ok d) :
    ∃ made, ModelExact m registry d made := by
  have hwhole := solvedModel_whole solved
  exact packFrom_exact hwhole.fits hwhole.objects hwhole.texts packed

/-- A data unit with padding inside its objects and behind them, an array, a dictionary and a custom
struct that aligns itself. -/
def paddedFields : DataUnit :=
  let span : CustomStruct := ⟨"Span", 8, 4, [.scalar (.u8 1), .align 4, .scalar (.u32 2)], [], []⟩
  ⟨"padded", ⟨"Root", [⟨"m_small", .scalar .u8, .scalar (.u8 1)⟩,
    ⟨"m_wide", .scalar .u64, .scalar (.u64 2)⟩, ⟨"m_span", .custom "Span", .custom span⟩,
    ⟨"m_shown", .bool, .bool true⟩,
    ⟨"m_list", .list (.scalar .u16), .sequence [.scalar (.u16 3), .scalar (.u16 4)]⟩,
    ⟨"m_table", .dictionary (.scalar .u8) (.scalar .u32),
      .dictionary [(.scalar (.u8 5), .scalar (.u32 6))]⟩,
    ⟨"m_other", .object "Other", .object ⟨"Other", []⟩⟩]⟩⟩

/-- The root object ends three bytes before its block does, and the dictionary has three bytes between
its key and its value; the object without fields has an empty block. -/
theorem packFrom_modelExact_paddedFields : ∃ root m d made,
    solvedModel {} .standard paddedFields = .ok (root, m) ∧
    packFrom m .empty (.blank .win64 .chained m.supply) root = .ok d ∧
    d.blocks.map (fun b => (b.alignment, b.limit, b.body.map (·.size))) =
      [(1, none, some 0), (8, some 64, some 61), (1, some 0, some 0), (2, some 4, some 4),
        (4, some 8, some 8)] ∧
    ModelExact m .empty d made := by
  have hcheck : (solvedModel {} .standard paddedFields).toOption.any (fun x =>
      (packFrom x.2 .empty (.blank .win64 .chained x.2.supply) x.1).toOption.any fun d =>
        d.blocks.map (fun b => (b.alignment, b.limit, b.body.map (·.size))) =
          [(1, none, some 0), (8, some 64, some 61), (1, some 0, some 0), (2, some 4, some 4),
            (4, some 8, some 8)]) = true := by
    decide +kernel
  simp only [Option.any_eq_true, decide_eq_true_eq, toOption_eq_some, Prod.exists] at hcheck
  obtain ⟨root, m, hsolved, d, hpacked, hblocks⟩ := hcheck
  obtain ⟨made, hexact⟩ := packFrom_modelExact hsolved hpacked
  exact ⟨root, m, d, made, hsolved, hpacked, hblocks, hexact⟩

end ObjectPack.Options
