import ObjectPack.Interface.Source
import ObjectPack.Model.Solve
import ObjectPack.Packing
import ObjectPack.Walk

/-!
# Compiling data units

The whole way from a data unit to its container and the interface that reads it: walk the object
graph, solve the layout, pack the model, write the interface.  Container and interface come from
one solved model, so they agree.
-/

namespace ObjectPack

/-- How data units are compiled. -/
structure Options where
  platform : Platform := .win64
  encoding : PointerEncoding := .chained
  unknown : Walk.UnknownPolicy := .skip
  order : Walk.MemberOrder := .declaration
  /-- What is taken off the front of field names. -/
  memberLead : String := "m_"
  style : Interface.Style := .standard

/-- Why a data unit cannot be compiled. -/
inductive CompileError where
  | walk (error : WalkError)
  | pack (error : PackError)
  | order (error : OrderError)
  deriving DecidableEq, Repr

/-- The explanation of an error. -/
def CompileError.message : CompileError → String
  | .walk error => error.message
  | .pack error => error.message
  | .order error => error.message

/-- A container and the interface that reads it. -/
structure CompiledUnit where
  data : PackedContainer
  code : String
  deriving DecidableEq, Repr

namespace Options

/-- How object graphs are walked under these options. -/
def rules (o : Options) (classifier : Classifier) : Walk.Rules :=
  ⟨classifier, o.unknown, o.order, o.memberLead⟩

/-- Flattens a data unit; the result also tells its row. -/
def walk (o : Options) (classifier : Classifier) (unit : DataUnit) :
    Except (Failure CompileError) (Nat × Model) :=
  ((o.rules classifier).walk .empty unit).mapError fun e => .error (.walk e)

/-- Flattens a data unit and solves the layout; the result also tells the row of the unit. -/
def solvedModel (o : Options) (classifier : Classifier) (unit : DataUnit) :
    Except (Failure CompileError) (Nat × Model) := do
  let (root, m) ← o.walk classifier unit
  let (m, _) ← m.solve
  return (root, m)

/-- Packs a solved model. -/
def pack (o : Options) (registry : Registry) (m : Model) (root : Nat) :
    Except (Failure CompileError) PackedContainer := do
  let (result, _) ← m.pack registry o.platform o.encoding root
  result.mapError fun e => .error (.pack e)

/-- Writes the interface of a solved model. -/
def interface (o : Options) (m : Model) : Except (Failure CompileError) String :=
  (m.interface o.style).mapError (·.map .order)

/-- Compiles a data unit. -/
def compile (o : Options) (classifier : Classifier) (registry : Registry) (unit : DataUnit) :
    Except (Failure CompileError) CompiledUnit := do
  let (root, m) ← o.solvedModel classifier unit
  let data ← o.pack registry m root
  let code ← o.interface m
  return ⟨data, code⟩

end Options

end ObjectPack
