/-!
# References

A reference names a block of a draft or a marked position in one.  References are numbered in the
order in which they are taken from a supply; the number is a name only and never reaches a
finished container.
-/

namespace ObjectPack

/-- The name of a block or of a marked position. -/
structure Reference where
  id : Nat
  deriving DecidableEq, Repr, Inhabited

namespace Reference

/-- The reference that names nothing. -/
def empty : Reference := ⟨0⟩

/-- Whether this is the reference that names nothing. -/
def isEmpty (r : Reference) : Bool := r.id = 0

/-- The written form of a reference in messages. -/
def text (r : Reference) : String := "ref#" ++ toString r.id

end Reference

/-- A supply of references: those numbered from `next` on have not been taken. -/
structure Supply where
  next : Nat
  deriving DecidableEq, Repr

namespace Supply

/-- The supply from which nothing has been taken; the empty reference is not part of it. -/
def full : Supply := ⟨1⟩

/-- Takes the next reference. -/
def take (s : Supply) : Reference × Supply := (⟨s.next⟩, ⟨s.next + 1⟩)

end Supply

end ObjectPack
