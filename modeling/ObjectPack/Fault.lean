import ObjectPack.Kind
import ObjectPack.Reference

/-!
# Faults

A fault is a broken contract: an operation was used where its preconditions do not hold, and what
was under way cannot go on.  Faults are unlike the errors of analysing, packing or opening, which
are answers about the input.  Most faults explain themselves; arithmetic that leaves its machine
word and an index that names nothing do not.
-/

namespace ObjectPack

/-- A broken contract. -/
inductive Fault where
  /-- A size, an offset or a count leaves its machine word. -/
  | overflow
  /-- An index names no element. -/
  | outOfRange
  | noOpenBlock
  | blockStillOpen (block : Reference)
  | noOpenUnit
  | unitStillOpen (unit : Nat)
  | unknownUnit (unit : Nat)
  | notABlock (reference : Reference)
  | blockAlignment (alignment : Nat)
  | openedTwice (block : Reference)
  | misaligned (width position : Nat) (block : Reference)
  | overrun (length : Nat) (block : Reference) (stop limit : Nat)
  | alreadyTargeted (reference : Reference)
  | neverWritten (block : Reference)
  | dangling (reference : Reference)
  | enumWithoutValue (row : Nat) (name : String)
  | noSubRange (row : Nat) (name : String) (kind : Kind)
  | noTypeName (row : Nat) (name : String) (kind : Kind)
  | noDataUnit (row : Nat)
  | unexpectedMember (row : Nat) (name : String) (kind : Kind) (context : String)
  /-- A read of `width` bytes at `position` leaves a data unit of `size` bytes. -/
  | outsideUnit (width position size : Nat)
  | enumKind (kind : Kind)
  deriving DecidableEq, Repr

namespace Fault

/-- How a message names a row. -/
def rowText (row : Nat) (name : String) (kind : Kind) : String :=
  "MetaCode: member " ++ toString row ++ " (" ++ name ++ ", " ++ kind.name ++ ")"

/-- The explanation of a fault, where it has one. -/
def message? : Fault → Option String
  | .overflow => none
  | .outOfRange => none
  | .noOpenBlock => some "DataStream: no open block"
  | .blockStillOpen block => some ("DataStream: block " ++ block.text ++ " is still open")
  | .noOpenUnit => some "DataStream: no open data unit"
  | .unitStillOpen unit => some ("DataStream: data unit " ++ toString unit ++ " is still open")
  | .unknownUnit unit => some ("DataStream: unknown data unit " ++ toString unit)
  | .notABlock reference => some ("DataStream: " ++ reference.text ++ " does not name a block")
  | .blockAlignment alignment =>
    some ("DataStream: block alignment " ++ toString alignment ++ " is not a power of two")
  | .openedTwice block => some ("DataStream: block " ++ block.text ++ " opened twice")
  | .misaligned width position block =>
    some ("DataStream: misaligned " ++ toString width ++ "-byte write at offset "
      ++ toString position ++ " of block " ++ block.text)
  | .overrun length block stop limit =>
    some ("DataStream: write of " ++ toString length ++ " bytes overruns block " ++ block.text
      ++ " (" ++ toString stop ++ " > " ++ toString limit ++ ")")
  | .alreadyTargeted reference =>
    some ("DataStream: " ++ reference.text ++ " already has a target")
  | .neverWritten block =>
    some ("DataStream: block " ++ block.text ++ " was registered but never written")
  | .dangling reference =>
    some ("DataStream: dangling reference " ++ reference.text ++ " at patch time")
  | .enumWithoutValue row name =>
    some ("MetaCode: enum member " ++ toString row ++ " (" ++ name ++ ") carries no value")
  | .noSubRange row name kind => some (rowText row name kind ++ " has no sub-range")
  | .noTypeName row name kind => some (rowText row name kind ++ " has no type name")
  | .noDataUnit row =>
    some ("MetaCode: member " ++ toString row ++ " is not a present data unit")
  | .unexpectedMember row name kind context =>
    some (rowText row name kind ++ " cannot be written as " ++ context)
  | .outsideUnit width position size =>
    some ("read of " ++ toString width ++ " bytes at " ++ toString position
      ++ " is outside the unit (" ++ toString size ++ " bytes)")
  | .enumKind kind => some ("enum underlying kind must be an integer, got " ++ kind.name)

end Fault

/-- What an index names, or the fault of an index that names nothing. -/
def indexed {α : Type} : Option α → Except Fault α
  | some a => .ok a
  | none => .error .outOfRange

/-- Why a step that can answer with an error of its own did not succeed. -/
inductive Failure (ε : Type) where
  /-- A contract was broken. -/
  | fault (fault : Fault)
  /-- The input was answered with an error. -/
  | error (error : ε)
  deriving DecidableEq, Repr

namespace Failure

/-- A failure whose error is seen as an error of a wider type. -/
def map {ε ε' : Type} (f : ε → ε') : Failure ε → Failure ε'
  | .fault broken => .fault broken
  | .error e => .error (f e)

end Failure

/-- A computation that can only break contracts, inside one that can also answer with errors. -/
instance {ε : Type} : MonadLift (Except Fault) (Except (Failure ε)) where
  monadLift x := x.mapError .fault

/-- The word of a size or an offset ends here: 32-bit arithmetic that reaches it overflows. -/
def wordLimit : Nat := 0x100000000

/-- The sum of two 32-bit numbers. -/
def addWord (a b : Nat) : Except Fault Nat :=
  if a + b < wordLimit then .ok (a + b) else .error .overflow

end ObjectPack
