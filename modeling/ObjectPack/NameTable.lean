/-!
# Interned names

Member and type names are kept once, in the order of their first use, and named by their index
there.
-/

namespace ObjectPack

/-- The distinct names seen so far, in the order of their first use. -/
structure NameTable where
  names : List String
  deriving Repr, DecidableEq

namespace NameTable

/-- No names. -/
def empty : NameTable := ⟨[]⟩

/-- How many distinct names there are. -/
def size (t : NameTable) : Nat := t.names.length

/-- The index of a name, if it is known. -/
def find? (t : NameTable) (name : String) : Option Nat := t.names.idxOf? name

/-- The name with the given index. -/
def get? (t : NameTable) (index : Nat) : Option String := t.names[index]?

/-- The index of a name, and the table that knows it: a new name is put at the end. -/
def intern (t : NameTable) (name : String) : Nat × NameTable :=
  match t.find? name with
  | some index => (index, t)
  | none => (t.size, ⟨t.names ++ [name]⟩)

end NameTable

end ObjectPack
