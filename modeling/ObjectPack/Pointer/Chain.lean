import ObjectPack.Pointer

/-!
# Pointer chains

Walking the chained sites of a data unit.  A walk ends after a given number of sites even if the
links go on, at a link of zero, and at a site or a target that leaves the unit or the range of
offsets.
-/

namespace ObjectPack

/-- A walk along the chained sites of a data unit. -/
structure Chain where
  /-- The bytes of the unit. -/
  unit : Bytes
  endian : Endian
  /-- The site to visit next. -/
  next : Option UInt32
  /-- How many sites may still be visited. -/
  remaining : Nat
  deriving Repr

namespace Chain

/-- One step of the walk: the site visited, if any, and the walk behind it.  A site whose target
is no offset is passed over in silence: it counts as visited, and its link stays in force. -/
def step (c : Chain) : Option Pointer × Chain :=
  if c.remaining = 0 then (none, c)
  else
    match c.next with
    | none => (none, c)
    | some position =>
      match c.unit.slice? position.toNat Pointer.slotSize with
      -- The slot leaves the unit: the walk is over.
      | none => (none, { c with next := none })
      | some slot =>
        let link := c.endian.delta32 slot 0
        let target := (position.toNat : Int) + c.endian.delta32 slot 4
        let next := if link = 0 then none else offset32? ((position.toNat : Int) + link)
        ((offset32? target).map (⟨position, ·⟩),
          { c with next := next, remaining := c.remaining - 1 })

/-- The results of the next `n` steps, ended walks included. -/
def steps : Nat → Chain → List (Option Pointer)
  | 0, _ => []
  | n + 1, c =>
    let (found, rest) := c.step
    found :: steps n rest

/-- The sites up to the first step that finds none, of at most `n` steps. -/
def sites : Nat → Chain → List Pointer
  | 0, _ => []
  | n + 1, c =>
    match c.step with
    | (none, _) => []
    | (some p, rest) => p :: sites n rest

/-- All sites up to the first step that finds none. -/
def toList (c : Chain) : List Pointer := sites c.remaining c

end Chain

end ObjectPack
