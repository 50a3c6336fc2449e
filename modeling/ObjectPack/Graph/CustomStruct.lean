import ObjectPack.WriteStep

/-!
# Custom structs

A value type that lays itself out.  It declares a size and an alignment, which the layout
reserves, and describes its packed form by write steps.  Its definition in a generated header is
given verbatim, together with the names of the structs that this definition embeds.
-/

namespace ObjectPack

/-- A value that packs itself. -/
structure CustomStruct where
  name : String
  /-- Declared size in bytes. -/
  size : Nat
  /-- Declared alignment in bytes. -/
  alignment : Nat
  /-- The packed form, written at a multiple of the alignment. -/
  writes : List WriteStep
  /-- The lines of the definition in a generated header. -/
  code : List String
  /-- The structs that the definition embeds. -/
  dependencies : List String
  deriving DecidableEq, Repr

namespace CustomStruct

/-- The packed form of a value about which nothing but its size is known. -/
def zeroed (size : Nat) : List WriteStep := [.zeros size]

end CustomStruct

end ObjectPack
